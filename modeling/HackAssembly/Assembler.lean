import HackAssembly.Assembler.Encode
import HackAssembly.Assembler.Gather

/-!
# Assembling

A run starts afresh, goes through the three passes, and on success has a word for each command.
What it does up to the end of a pass has a name of its own (`firstPass`, `secondPass`, `thirdPass`),
since that is as far as some runs come.  `assemble` runs all three, and `assembleTo` also hands the
program to a sink, in one piece and only when the run has succeeded.
-/

namespace HackAssembly

namespace Assembly

def firstPass (source : Source) : Assembly Unit := do
  gather source
  let gathered ← get
  note (.gathered gathered.commands.size gathered.table.size)

def secondPass (source : Source) : Assembly Unit := do
  firstPass source
  resolve
  note (.resolved ((← get).nextVariable - firstVariable))

def thirdPass (source : Source) : Assembly Unit := do
  secondPass source
  encode
  note (.encoded (← get).diagnostics.size)

/-- A whole run over a source, from a fresh state. -/
def assemble (source : Source) : Assembly Unit := do
  reset
  thirdPass source

theorem run_assemble_eq (source : Source) (a : Assembler) :
    (assemble source).run a = (thirdPass source).run (.fresh a.mode) := rfl

end Assembly

def Assembler.codes (a : Assembler) : List Bytes := a.commands.toList.map Command.codeText

/-- The program as it is written: a line of digits for each command. -/
def Assembler.program (a : Assembler) : Bytes :=
  a.codes.flatMap fun code => code ++ [Byte.lineFeed]

/-- A whole run over a source that ends with writing the program.  A run that fails writes nothing;
one that succeeds writes exactly once, and a refusal is its fault. -/
def Assembler.assembleTo (source : Source) (sink : Sink) (a : Assembler) :
    Sink × EStateM.Result Fault Assembler Unit :=
  match Assembly.assemble source a with
  | .error fault a => (sink, .error fault a)
  | .ok _ a =>
    match sink.write a.program with
    | (sink, none) => (sink, .ok () a)
    | (sink, some cause) => (sink, .error (.unwritable cause) a)

end HackAssembly
