import HackAssembly.Assembler.Resolve
import HackAssembly.Computation
import HackAssembly.Constant

/-!
# Encoding

The third pass gives each command its word.  It only reads the symbol table, and what it writes for
a command depends on nothing but the table and the command's kind and content.
-/

namespace HackAssembly.Assembly

/-- The word of an instruction of a given kind. -/
def encodeContent (kind : Kind) (line : Int) (content : Bytes) : Assembly Word := do
  match kind with
  | .constant =>
    let (address, tooLarge) := Constant.read (content.drop 1)
    if tooLarge then
      report line content .constantTooLarge
    return .ofAddress address
  | .symbol =>
    match (← get).table.address? (content.drop 1) with
    | some address => return .ofAddress address
    | none => throw (.undefinedSymbol line (content.drop 1))
  | .computation =>
    reportAll line content (Computation.problems content)
    return (Computation.instruction content).encode

def encodeCommand (index : Nat) (command : Command) : Assembly Unit := do
  let word ← encodeContent command.kind command.line command.content
  setCommand index { command with code := some word }

/-- The third pass: encodes all commands. -/
def encode : Assembly Unit := atEachCommand encodeCommand

end HackAssembly.Assembly
