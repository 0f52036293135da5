import HackAssembly.Assembler.State
import HackAssembly.Source
import HackAssembly.Text.Line

/-!
# Gathering the program

The first pass reads the source, counts its lines, binds each declared label to the number of
instructions before it, and keeps every other line that is not blank as a command.  Declaring a
label again moves it.  A line that opens a label declaration without completing it is reported and
kept as an instruction.

The source is read chunk by chunk.  When reading fails, the bytes after the last line feed have not
made up a chunk and are not looked at, and the fault names the line after the last one counted.
-/

namespace HackAssembly.Assembly

/-- Binds a label to the address of the next instruction. -/
def declareLabel (content label : Bytes) : Assembly Unit := do
  let line := (← get).line
  let count := (← get).nextInstruction
  let address ← checkAddress line content count
  bindSymbol label address
  note (.labelBound label count)

/-- Keeps a line as the next instruction. -/
def addCommand (content : Bytes) : Assembly Unit := do
  if opensLabel content then
    report (← get).line content .labelForm
  modify fun a => { a with
    commands := a.commands.push { line := a.line, content }
    nextInstruction := a.nextInstruction + 1 }

/-- Takes in the normalised form of the current line. -/
def gatherContent (content : Bytes) : Assembly Unit :=
  if content.isEmpty then pure ()
  else match declaredLabel? content with
    | some label => declareLabel content label
    | none => addCommand content

def gatherLine (line : Bytes) : Assembly Unit := do
  modify fun a => { a with line := a.line + 1 }
  gatherContent (normalise line)

def gatherText (text : Bytes) : Assembly Unit := (lines text).forM gatherLine

/-- The first pass: takes in a source, chunk by chunk. -/
def gather (source : Source) : Assembly Unit := do
  let (complete, rest) := chunks source.bytes
  complete.forM gatherText
  match source.failure with
  | none => gatherText rest
  | some cause => throw (.unreadable ((← get).line + 1) cause)

end HackAssembly.Assembly
