import HackAssembly.Text.Byte

/-!
# Computations

The twenty-eight computations of the arithmetic unit.  Each has seven bits and a canonical spelling;
nine of them are commutative, and these can also be written with their operands exchanged, which
makes thirty-seven spellings in all.

* `Comp.bits` and `Comp.ofBits?`: the code of a computation, and the computation with a code.
* `Comp.spelling`, `Comp.exchanged?`: the canonical spelling, and the other one.
* `Comp.read?`: the computation with a given spelling of either kind.
-/

namespace HackAssembly

/-- A computation of the arithmetic unit on the registers `A` and `D`, on the memory cell `M` that
`A` addresses, and on the constants. -/
inductive Comp where
  | zero | one | minusOne
  | d | a | m
  | notD | notA | notM
  | negD | negA | negM
  | incD | incA | incM
  | decD | decA | decM
  | dPlusA | dPlusM
  | dMinusA | dMinusM
  | aMinusD | mMinusD
  | dAndA | dAndM
  | dOrA | dOrM
  deriving DecidableEq

namespace Comp

def all : List Comp :=
  [zero, one, minusOne, d, a, m, notD, notA, notM, negD, negA, negM, incD, incA, incM,
    decD, decA, decM, dPlusA, dPlusM, dMinusA, dMinusM, aMinusD, mMinusD, dAndA, dAndM, dOrA, dOrM]

/-! ## Codes -/

/-- The code of a computation: a bit that chooses `M` in place of `A`, and the six control bits of
the arithmetic unit. -/
def bits : Comp → BitVec 7
  | zero => 0b0101010
  | one => 0b0111111
  | minusOne => 0b0111010
  | d => 0b0001100
  | a => 0b0110000
  | m => 0b1110000
  | notD => 0b0001101
  | notA => 0b0110001
  | notM => 0b1110001
  | negD => 0b0001111
  | negA => 0b0110011
  | negM => 0b1110011
  | incD => 0b0011111
  | incA => 0b0110111
  | incM => 0b1110111
  | decD => 0b0001110
  | decA => 0b0110010
  | decM => 0b1110010
  | dPlusA => 0b0000010
  | dPlusM => 0b1000010
  | dMinusA => 0b0010011
  | dMinusM => 0b1010011
  | aMinusD => 0b0000111
  | mMinusD => 0b1000111
  | dAndA => 0b0000000
  | dAndM => 0b1000000
  | dOrA => 0b0010101
  | dOrM => 0b1010101

def ofBits? (code : BitVec 7) : Option Comp := all.find? (·.bits == code)

theorem ofBits?_bits (c : Comp) : ofBits? c.bits = some c := by
  cases c <;> rfl

theorem bits_of_ofBits? {code : BitVec 7} {c : Comp} (h : ofBits? code = some c) :
    c.bits = code := by
  simpa using List.find?_some h

/-! ## Spellings -/

def spelling : Comp → Bytes
  | zero => ascii "0"
  | one => ascii "1"
  | minusOne => ascii "-1"
  | d => ascii "D"
  | a => ascii "A"
  | m => ascii "M"
  | notD => ascii "!D"
  | notA => ascii "!A"
  | notM => ascii "!M"
  | negD => ascii "-D"
  | negA => ascii "-A"
  | negM => ascii "-M"
  | incD => ascii "D+1"
  | incA => ascii "A+1"
  | incM => ascii "M+1"
  | decD => ascii "D-1"
  | decA => ascii "A-1"
  | decM => ascii "M-1"
  | dPlusA => ascii "D+A"
  | dPlusM => ascii "D+M"
  | dMinusA => ascii "D-A"
  | dMinusM => ascii "D-M"
  | aMinusD => ascii "A-D"
  | mMinusD => ascii "M-D"
  | dAndA => ascii "D&A"
  | dAndM => ascii "D&M"
  | dOrA => ascii "D|A"
  | dOrM => ascii "D|M"

/-- The spelling of a commutative computation with its operands exchanged. -/
def exchanged? : Comp → Option Bytes
  | incD => some (ascii "1+D")
  | incA => some (ascii "1+A")
  | incM => some (ascii "1+M")
  | dPlusA => some (ascii "A+D")
  | dPlusM => some (ascii "M+D")
  | dAndA => some (ascii "A&D")
  | dAndM => some (ascii "M&D")
  | dOrA => some (ascii "A|D")
  | dOrM => some (ascii "M|D")
  | _ => none

def isSpelledBy (c : Comp) (s : Bytes) : Bool := c.spelling == s || c.exchanged? == some s

def read? (s : Bytes) : Option Comp := all.find? (·.isSpelledBy s)

theorem read?_spelling (c : Comp) : read? c.spelling = some c := by
  cases c <;> decide +kernel

end Comp

end HackAssembly
