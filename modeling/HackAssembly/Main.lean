import HackAssembly.Tool.Standard

/-!
# The command line

The tool on the files of the machine: `main` passes its arguments on, writes what is shown to the
standard output and the log to the standard error, and returns the exit code.
-/

namespace HackAssembly.Machine

/-- A text as the machine takes it. -/
def ofBytes (s : Bytes) : String := (String.fromUTF8? s.toByteArray).getD ""

def toBytes (s : String) : Bytes := s.toUTF8.toList

def pathError : IO.Error → PathError
  | .noFileOrDirectory _ _ _ => .missing
  | .inappropriateType _ 20 _ => .notDirectory
  | .inappropriateType _ 21 _ => .isDirectory
  | .invalidArgument _ 36 _ => .nameTooLong
  | error => .other (toBytes (toString error))

def readOpened (path : Bytes) (handle : IO.FS.Handle) : IO Source := do
  try
    return ⟨(← handle.readBinToEnd).toList, none⟩
  catch error =>
    return ⟨[], some ((pathError error).renderRead path)⟩

def disk : Disk IO where
  openFile path := do
    try
      let handle ← IO.FS.Handle.mk (ofBytes path) .read
      return .ok (← readOpened path handle)
    catch error =>
      return .error (pathError error)
  replaceFile path content := do
    try
      IO.FS.writeBinFile (ofBytes path) content.toByteArray
      return .ok ()
    catch error =>
      return .error (pathError error)

/-- The letter in front of an entry of the log. -/
def letter : Severity → String
  | .info _ => "I"
  | .warning => "W"
  | .error => "E"

end HackAssembly.Machine

open HackAssembly in
def main (arguments : List String) : IO UInt32 := do
  let e ← Tool.run .standard Machine.disk (arguments.map Machine.toBytes)
  (← IO.getStdout).write e.output.toByteArray
  let stderr ← IO.getStderr
  for entry in e.log do
    stderr.putStr (Machine.letter entry.severity ++ "] ")
    stderr.write (entry.text ++ [Byte.lineFeed]).toByteArray
  return e.code.toUInt32
