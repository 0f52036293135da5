import HackAssembly.Text.Byte

/-!
# Paths

A path is a text of names between slashes.  `Path.read` takes it apart, keeping the names `.` and
`..`, which mean something only where they are met; `Location` is where a path leads, with these
names gone.

`outputPath` is the path of the file that goes with an input: the last name of the input's path
loses what follows its last dot, the dot included, and gets an extension instead.
-/

namespace HackAssembly

namespace Path

def slash : UInt8 := 0x2F

def dot : UInt8 := 0x2E

/-- The name of the directory in which it stands. -/
def here : Bytes := [dot]

/-- The name of the directory above the one in which it stands. -/
def above : Bytes := [dot, dot]

/-- The most bytes of a name. -/
def nameLimit : Nat := 255

/-- The most bytes of a path. -/
def sizeLimit : Nat := 4095

end Path

structure Path where
  absolute : Bool
  names : List Bytes
  /-- Whether a slash follows the last name. -/
  closed : Bool
  deriving DecidableEq

/-- Takes a path apart.  The empty text is no path. -/
def Path.read (text : Bytes) : Option Path :=
  if text.isEmpty then none
  else some {
    absolute := text.head? == some slash
    names := (text.splitOn slash).filter (!·.isEmpty)
    closed := text.getLast? == some slash }

/-- A place in the tree of directories, given by the names that lead to it from the working
directory.  The names `..` can stand in front only, for directories above the working directory; a
single slash in front stands for the root. -/
abbrev Location := List Bytes

namespace Location

def working : Location := []

def root : Location := [[Path.slash]]

/-- Whether a location is a directory whatever the files are: the working directory, one above it,
or the root. -/
def isFixed (l : Location) : Bool := l == root || l.all (· == Path.above)

def isBelow (l : Location) : Bool :=
  match l.head? with
  | none => false
  | some name => name != Path.above && name != [Path.slash]

/-- The directory that holds a location; the root holds itself. -/
def parent (l : Location) : Location :=
  if l == root then l
  else if l.all (· == Path.above) then l ++ [Path.above]
  else l.dropLast

def enter (l : Location) (name : Bytes) : Location :=
  if name == Path.here then l
  else if name == Path.above then l.parent
  else l ++ [name]

def render : Location → Bytes
  | [0x2F] :: names => Path.slash :: [Path.slash].intercalate names
  | names => [Path.slash].intercalate names

end Location

/-- The path of the file with extension `extension` that goes with an input. -/
def outputPath (input extension : Bytes) : Bytes :=
  match input.reverse.dropWhile fun b => b != Path.dot && b != Path.slash with
  | 0x2E :: stem => stem.reverse ++ extension
  | _ => input ++ extension

end HackAssembly
