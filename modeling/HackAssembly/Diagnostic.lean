import HackAssembly.Text.Decimal

/-!
# Problems, diagnostics and faults

A *problem* is a fragment of the source that cannot be taken at its word.  A *diagnostic* says where
a problem was met.  A *fault* ends a run: a diagnostic that strict mode does not let pass, a symbol
without an address, a source that cannot be read, or a program that cannot be written.

The wording of each is fixed here and nowhere else.
-/

namespace HackAssembly

/-! ## Problems -/

/-- A fragment that is not understood, or not as large as it says. -/
inductive Problem where
  /-- A line opens a label declaration and does not complete it. -/
  | labelForm
  | addressTooLarge
  /-- What follows `@` is neither a symbol nor a numeral. -/
  | operandForm
  | constantTooLarge
  | dest
  | comp
  | jump
  deriving DecidableEq

def Problem.message : Problem → Bytes
  | labelForm => ascii "wrong label format"
  | addressTooLarge => ascii "address larger than 32767"
  | operandForm => ascii "wrong variable or label format"
  | constantTooLarge => ascii "constant larger than 32767"
  | dest => ascii "wrong c command of dest code format"
  | comp => ascii "wrong c command of comp code format"
  | jump => ascii "wrong c command of jump code format"

/-! ## Diagnostics -/

structure Diagnostic where
  line : Int
  content : Bytes
  problem : Problem
  deriving DecidableEq

/-- The text of a diagnostic, from its line, the wording of its problem and its content. -/
def Diagnostic.text (line : Int) (message content : Bytes) : Bytes :=
  ascii "line " ++ Decimal.ofInt line ++ ascii ": " ++ message ++ ascii " near " ++ content

def Diagnostic.render (d : Diagnostic) : Bytes := text d.line d.problem.message d.content

/-! ## Faults -/

/-- Why a run ends early. -/
inductive Fault where
  | rejected (diagnostic : Diagnostic)
  | undefinedSymbol (line : Int) (name : Bytes)
  /-- A source that could not be read on from a line. -/
  | unreadable (line : Nat) (cause : Bytes)
  | unwritable (cause : Bytes)
  deriving DecidableEq

namespace Fault

/-- The text of a rejection, from its line, the wording of its problem and its content. -/
def rejectionText (line : Int) (message content : Bytes) : Bytes :=
  ascii "syntax err at " ++ Diagnostic.text line message content

def undefinedText (name : Bytes) : Bytes := ascii "undefined symbol: " ++ name

def render : Fault → Bytes
  | rejected d => rejectionText d.line d.problem.message d.content
  | undefinedSymbol line name =>
    ascii "internal err at line " ++ Decimal.ofInt line ++ ascii ": " ++ undefinedText name
  | unreadable line cause =>
    ascii "failed to read source at line " ++ Decimal.ofNat line ++ ascii ": " ++ cause
  | unwritable cause => cause

end Fault

end HackAssembly
