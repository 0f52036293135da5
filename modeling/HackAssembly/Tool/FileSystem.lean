import HackAssembly.Source
import HackAssembly.Tool.Path
import Std.Data.ExtTreeMap

/-!
# Files

The tool needs two things from a disk: to open a file for reading, and to replace the content of a
file, creating it where it does not exist.  `Disk` names them, for an arbitrary monad, so that the
same tool runs on the files of the machine and on a `FileSystem`, which is a value.

A path must not be too long, and neither must a name in it; a name counts only once the directories
before it have been gone through.

A directory can be opened, but reading from it fails.  Replacing a file either fails and changes
nothing or replaces the whole content.
-/

namespace HackAssembly

/-! ## Failures -/

inductive PathError where
  /-- Nothing is there, or a directory on the way is missing. -/
  | missing
  | notDirectory
  /-- A directory is there, and cannot be written to. -/
  | isDirectory
  | nameTooLong
  | other (reason : Bytes)
  deriving DecidableEq

def PathError.reason : PathError → Bytes
  | missing => ascii "no such file or directory"
  | notDirectory => ascii "not a directory"
  | isDirectory => ascii "is a directory"
  | nameTooLong => ascii "file name too long"
  | other reason => reason

def PathError.render (error : PathError) (path : Bytes) : Bytes :=
  ascii "open " ++ path ++ ascii ": " ++ error.reason

def PathError.renderRead (error : PathError) (path : Bytes) : Bytes :=
  ascii "read " ++ path ++ ascii ": " ++ error.reason

/-! ## Disks -/

/-- What the tool needs from a disk. -/
structure Disk (m : Type → Type) where
  openFile : Bytes → m (Except PathError Source)
  replaceFile : Bytes → Bytes → m (Except PathError Unit)

/-! ## File systems -/

inductive Node where
  | file (content : Bytes)
  | directory
  deriving DecidableEq

/-- A tree of directories and files. -/
structure FileSystem where
  nodes : Std.ExtTreeMap Location Node compare

namespace FileSystem

/-- The working directory with nothing in it. -/
def empty : FileSystem := ⟨∅⟩

def node? (fs : FileSystem) (l : Location) : Option Node :=
  if l.isFixed then some .directory else fs.nodes[l]?

def put (fs : FileSystem) (l : Location) (node : Node) : FileSystem :=
  ⟨fs.nodes.insert l node⟩

/-- Puts a node at the end of a path and directories at all places before it. -/
def place (fs : FileSystem) (path : Bytes) (node : Node) : FileSystem :=
  match Path.read path with
  | none => fs
  | some path =>
    let start := if path.absolute then Location.root else Location.working
    let (fs, l) := path.names.foldl (fun (fs, l) name =>
      (if l.isFixed then fs else put fs l .directory, l.enter name)) (fs, start)
    if l.isFixed then fs else fs.put l node

def lookUp (fs : FileSystem) (l : Location) : Except PathError (Option Node) :=
  if l.any fun name => Path.nameLimit < name.length then .error .nameTooLong
  else .ok (fs.node? l)

/-- Goes through directories, one for each name. -/
def descend (fs : FileSystem) (l : Location) : List Bytes → Except PathError Location
  | [] => .ok l
  | name :: names =>
    match fs.lookUp (l.enter name) with
    | .error error => .error error
    | .ok none => .error .missing
    | .ok (some (.file _)) => .error .notDirectory
    | .ok (some .directory) => descend fs (l.enter name) names

def readPath (text : Bytes) : Except PathError Path :=
  if Path.sizeLimit < text.length then .error .nameTooLong
  else
    match Path.read text with
    | none => .error .missing
    | some path => .ok path

/-- Where a path leads, once the directories on the way have been gone through. -/
def locate (fs : FileSystem) (path : Path) : Except PathError Location := do
  let start := if path.absolute then Location.root else Location.working
  let l ← fs.descend start path.names.dropLast
  match path.names.getLast? with
  | none => return l
  | some name => return l.enter name

def openFile (fs : FileSystem) (path : Bytes) : Except PathError Source := do
  let parts ← readPath path
  match ← fs.lookUp (← fs.locate parts) with
  | none => throw .missing
  | some .directory => return ⟨[], some (PathError.isDirectory.renderRead path)⟩
  | some (.file content) =>
    if parts.closed then throw .notDirectory
    return ⟨content, none⟩

def replaceFile (fs : FileSystem) (path content : Bytes) : Except PathError FileSystem := do
  let parts ← readPath path
  let l ← fs.locate parts
  if parts.closed then throw .isDirectory
  if (← fs.lookUp l) == some .directory then throw .isDirectory
  return fs.put l (.file content)

def disk : Disk (StateM FileSystem) where
  openFile path := return (← get).openFile path
  replaceFile path content := do
    match (← get).replaceFile path content with
    | .ok fs => set fs; return .ok ()
    | .error error => return .error error

/-- The files below the working directory that are new or have another content, with their
paths. -/
def changes (before after : FileSystem) : List (Bytes × Bytes) :=
  after.nodes.toList.filterMap fun (l, node) =>
    match node with
    | .file content =>
      if l.isBelow && before.node? l != some node then some (l.render, content) else none
    | .directory => none

end FileSystem

end HackAssembly
