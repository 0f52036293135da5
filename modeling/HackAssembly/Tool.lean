import HackAssembly.Assembler
import HackAssembly.Disassembly
import HackAssembly.Tool.FileSystem
import HackAssembly.Tool.Listing
import HackAssembly.Tool.Request

/-!
# The tool

The tool reads a file, assembles or disassembles it, and writes the result to a file, or, for an
instruction listing without an output path, shows it.  It writes at most once, as its last step, and
only when all before has succeeded.  Any failure gives the exit code one and one error as the last
entry of the log.

`run` is the whole tool, on any disk.  How arguments are read and how diagnostics are shown as
records is left to others (`Packages`).
-/

namespace HackAssembly.Tool

/-- What the tool leaves to others. -/
structure Packages where
  /-- What arguments ask for, or what is wrong with them. -/
  read : List Bytes → Except Bytes Request
  /-- How diagnostics are shown. -/
  records : List Diagnostic → Bytes

structure Exit where
  /-- Zero for success, one for failure. -/
  code : UInt8 := 0
  output : Bytes := []
  log : List LogEntry := []
  deriving DecidableEq

/-- The end of a run that fails with a message, after what has been shown and logged. -/
def failed (message : Bytes) (output : Bytes) (log : List LogEntry) : Exit :=
  { code := 1, output, log := log ++ [⟨.error, .tool, message⟩] }

def Exit.through (gate : LogGate) (e : Exit) : Exit :=
  { e with log := e.log.filter (·.isShown gate) }

/-! ## Messages -/

def stepFailure (step path reason : Bytes) : Bytes :=
  ascii "failed to " ++ step ++ ascii ": " ++ path ++ ascii ", err: " ++ reason

def summary (done input output : Bytes) (count : Nat) : Bytes :=
  done ++ ascii " " ++ input ++ ascii " into " ++ output ++ ascii ": " ++ Decimal.ofNat count
    ++ ascii " instructions"

variable {m : Type → Type} [Monad m]

/-- Writes a result as the last step of a run, and logs the run when that succeeds. -/
def save (disk : Disk m) (path content : Bytes) (entry : LogEntry) (output : Bytes)
    (log : List LogEntry) : m Exit := do
  match ← disk.replaceFile path content with
  | .error error =>
    return failed (stepFailure (ascii "save to path") path (error.render path)) output log
  | .ok _ => return { output, log := log ++ [entry] }

/-! ## Actions -/

/-- The path that a source file is assembled to. -/
def programPath (settings : Settings) (path : Bytes) : Bytes :=
  if settings.output.isEmpty then outputPath path (ascii ".hack") else settings.output

def assembleFile (packages : Packages) (disk : Disk m) (settings : Settings) (path : Bytes) :
    m Exit := do
  match ← disk.openFile path with
  | .error error => return failed (stepFailure (ascii "open file") path (error.render path)) [] []
  | .ok source =>
    let mode := if settings.strict then .strict else .lenient
    match (Assembler.fresh mode).assembleTo source {} with
    | (_, .error fault a) =>
      let log := a.trace.toList.map Event.logEntry
      return failed (stepFailure (ascii "parse file") path fault.render) [] log
    | (sink, .ok _ a) =>
      let log := a.trace.toList.map Event.logEntry
        ++ a.diagnostics.toList.map (Diagnostic.logEntry path)
      let target := programPath settings path
      let message := summary (ascii "assembled") path target a.commands.size
      let output := if settings.verbose then Listing.ofAssembler packages.records a else []
      save disk target sink.taken ⟨.info 1, .assembling, message⟩ output log

def disassembleFile (disk : Disk m) (settings : Settings) (path : Bytes) : m Exit := do
  match ← disk.openFile path with
  | .error error => return failed (stepFailure (ascii "open file") path (error.render path)) [] []
  | .ok source =>
    match disassembleAll source with
    | .error fault =>
      return failed (stepFailure (ascii "disassemble file") path fault.render) [] []
    | .ok texts =>
      let content := texts.flatMap Listing.line
      if settings.output.isEmpty then return { output := content }
      else
        let message := summary (ascii "disassembled") path settings.output texts.length
        save disk settings.output content ⟨.info 1, .disassembling, message⟩ [] []

def perform (packages : Packages) (disk : Disk m) (action : Action) (settings : Settings)
    (gate : LogGate) (path : Bytes) : m Exit := do
  let e ← match action with
    | .assemble => assembleFile packages disk settings path
    | .disassemble => disassembleFile disk settings path
  return e.through gate

def run (packages : Packages) (disk : Disk m) (arguments : List Bytes) : m Exit :=
  match packages.read arguments with
  | .error message => return failed message [] []
  | .ok (.answered output) => return { output }
  | .ok (.act action settings gate path) => perform packages disk action settings gate path

end HackAssembly.Tool
