import HackAssembly.Instruction
import HackAssembly.Diagnostic

/-!
# Reading a computation

A computation is written `dest=comp;jump`.  The line is cut at its first `=` and its first `;`, and
each of the three fields is read by itself, so that a line can have up to three problems:

* the destination is what stands before the first `=`, and it is read only when something follows
  that `=`; otherwise the result goes nowhere;
* the computation is what stands between the first `=`, or the start, and the first `;`, or the end;
  it is empty when the first `;` comes before the first `=`;
* the jump is the last three bytes when these are preceded by a `;` and by something before it, and
  look like a jump; a line without that has no jump, and then it may not have a `;` either.

A field that cannot be read counts as zero bits: no destination, no jump, and for the computation
the one whose code is zero, `D&A`.
-/

namespace HackAssembly.Computation

/-! ## Fields -/

/-- The destination of a line, or `none` when it cannot be read. -/
def dest? (line : Bytes) : Option Dest :=
  match line.dropWhile (· != Byte.equalsSign) with
  | _ :: _ :: _ => Dest.read? (line.takeWhile (· != Byte.equalsSign))
  | _ => some .nowhere

def compText (line : Bytes) : Bytes :=
  match line.dropWhile (· != Byte.equalsSign) with
  | [] => line.takeWhile (· != Byte.semicolon)
  | _ :: rest =>
    if (line.takeWhile (· != Byte.equalsSign)).contains Byte.semicolon then []
    else rest.takeWhile (· != Byte.semicolon)

def comp? (line : Bytes) : Option Comp := Comp.read? (compText line)

/-- Whether a line ends in `;`, `J`, one of `GELNM` and one of `TQEP`, after at least one byte. -/
def hasJump (line : Bytes) : Bool :=
  match line.drop (line.length - 4) with
  | [0x3B, 0x4A, x, y] =>
    4 < line.length && (ascii "GELNM").contains x && (ascii "TQEP").contains y
  | _ => false

def jump? (line : Bytes) : Option Jump :=
  if hasJump line then Jump.read? (line.drop (line.length - 3))
  else if line.contains Byte.semicolon then none
  else some .never

/-! ## The whole line -/

def missing {α : Type} (field : Option α) (problem : Problem) : List Problem :=
  if field.isSome then [] else [problem]

def problems (line : Bytes) : List Problem :=
  missing (dest? line) .dest ++ missing (comp? line) .comp ++ missing (jump? line) .jump

/-- The instruction of a line, with zero bits for the fields that cannot be read. -/
def instruction (line : Bytes) : Instruction :=
  .compute ((comp? line).getD .dAndA) ((dest? line).getD .nowhere) ((jump? line).getD .never)

end HackAssembly.Computation
