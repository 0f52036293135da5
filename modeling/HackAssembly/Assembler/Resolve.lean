import HackAssembly.Assembler.State

/-!
# Resolving symbols

The second pass decides the kind of each instruction.  A symbol that is neither declared nor
predefined is a variable, and gets the next free address, from 16 on, where it is first used.  This
pass comes after all labels are bound, so that a label may be used before it is declared, and ends
before encoding starts.
-/

namespace HackAssembly.Assembly

def atEachCommand (visit : Nat → Command → Assembly Unit) : Assembly Unit := do
  (← get).commands.toList.zipIdx.forM fun (command, index) => visit index command

/-- Gives a symbol the next free address, unless it has one. -/
def allocate (line : Int) (content name : Bytes) : Assembly Unit := do
  unless (← get).table.contains name do
    let next := (← get).nextVariable
    let address ← checkAddress line content next
    bindSymbol name address
    note (.variableAllocated name next)
    modify fun a => { a with nextVariable := a.nextVariable + 1 }

/-- Decides the kind of a command and allocates the variable that it may introduce. -/
def resolveCommand (index : Nat) (command : Command) : Assembly Unit := do
  match Kind.ofContent command.content with
  | .symbol =>
    setCommand index { command with kind := .symbol }
    allocate command.line command.content (command.content.drop 1)
  | .constant => setCommand index { command with kind := .constant }
  | .computation =>
    if opensAddress command.content then
      report command.line command.content .operandForm
    setCommand index { command with kind := .computation }

/-- The second pass: decides the kinds of all commands and allocates all variables. -/
def resolve : Assembly Unit := atEachCommand resolveCommand

end HackAssembly.Assembly
