import HackAssembly.Statement
import HackAssembly.Instruction

/-!
# Commands

A command is an instruction of the program being assembled: the normalised line it came from, with
what the later passes find out about it.  Its index among the commands is its address in instruction
memory.
-/

namespace HackAssembly

/-- An instruction on its way from the source to a word. -/
structure Command where
  /-- What kind of instruction it is; a computation until its line has been looked at. -/
  kind : Kind := .computation
  code : Option Word := none
  line : Nat
  content : Bytes
  deriving DecidableEq

/-- The name of a kind, as the listing of the commands shows it. -/
def Kind.name : Kind → Bytes
  | computation => ascii "C"
  | constant => ascii "A_CONSTANT"
  | symbol => ascii "A_LABEL"

def Kind.ofNumber? : Int → Option Kind
  | 0 => some computation
  | 1 => some constant
  | 2 => some symbol
  | _ => none

/-- The name of the kind with a given number; a number without a kind is shown as it is. -/
def Kind.nameOfNumber (n : Int) : Bytes :=
  match ofNumber? n with
  | some kind => kind.name
  | none => ascii "CommandType(" ++ Decimal.ofInt n ++ ascii ")"

namespace Command

/-- The digits of a command's word; nothing before it has been encoded. -/
def codeText (command : Command) : Bytes := (command.code.map Binary.render).getD []

/-- The listing of a command, from the texts of its parts. -/
def text (kind code : Bytes) (line : Int) (content : Bytes) : Bytes :=
  ascii "Command: \x7bTp: " ++ kind ++ ascii ", Code: " ++ code ++ ascii ", Line: "
    ++ Decimal.ofInt line ++ ascii ", OriginalContent: " ++ content ++ ascii "\x7d"

def render (command : Command) : Bytes :=
  text command.kind.name command.codeText command.line command.content

end Command

end HackAssembly
