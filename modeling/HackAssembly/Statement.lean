import HackAssembly.Symbol
import HackAssembly.Text.Decimal

/-!
# Statements

What a source line says is decided on its normalised form, which has neither comment nor white
space: a blank line, a label declaration, or an instruction.  Instructions are of three kinds, and
the kind, too, is read off the normalised form alone.

* `normalise`: a line without its comment and without white space.
* `declaredLabel?`: the label that a normalised line declares.
* `Kind`, `Kind.ofContent`: the kind of an instruction.
-/

namespace HackAssembly

/-! ## Normalised lines -/

/-- The bytes before the first `//`, behind the bytes `kept`, which are in reverse. -/
def beforeComment.scan (kept : Bytes) : Bytes → Bytes
  | [] => kept.reverse
  | 0x2F :: 0x2F :: _ => kept.reverse
  | b :: rest => scan (b :: kept) rest

/-- A line up to its comment, which starts at the first `//`. -/
def beforeComment (line : Bytes) : Bytes := beforeComment.scan [] line

/-- A line without its comment and without white space. -/
def normalise (line : Bytes) : Bytes := (beforeComment line).filter (!Byte.isBlank ·)

/-! ## Label declarations -/

/-- The label that a normalised line declares: it is a symbol between parentheses. -/
def declaredLabel? : Bytes → Option Bytes
  | 0x28 :: rest =>
    if rest.getLast? == some Byte.closeParen && Symbol.isSymbol rest.dropLast then
      some rest.dropLast
    else none
  | _ => none

/-! ## Kinds of instructions -/

/-- The kind of an instruction. -/
inductive Kind where
  /-- A computation, and whatever else could not be read. -/
  | computation
  | constant
  | symbol
  deriving DecidableEq

/-- The kind of an instruction, from its normalised line: `@` with a symbol, `@` with a numeral, or
a computation. -/
def Kind.ofContent : Bytes → Kind
  | 0x40 :: operand =>
    if Symbol.isSymbol operand then .symbol
    else if Decimal.isNumeral operand then .constant
    else .computation
  | _ => .computation

def opensLabel (content : Bytes) : Bool := content.head? == some Byte.openParen

def opensAddress (content : Bytes) : Bool := content.head? == some Byte.atSign

end HackAssembly
