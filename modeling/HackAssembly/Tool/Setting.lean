import HackAssembly.Text.Decimal
import HackAssembly.Text.Quoted

/-!
# The values of settings

A switch takes one of twelve spellings of true and false.  The verbosity takes a decimal integer
with an optional sign that fits into 64 bits, of which the low 32 bits count.
-/

namespace HackAssembly

inductive ValueFault where
  | notSwitch
  | notNumber
  | outOfRange
  deriving DecidableEq

def ValueFault.render (fault : ValueFault) (value : Bytes) : Bytes :=
  match fault with
  | notSwitch => ascii "strconv.ParseBool: parsing " ++ quoted value ++ ascii ": invalid syntax"
  | notNumber => ascii "strconv.Atoi: parsing " ++ quoted value ++ ascii ": invalid syntax"
  | outOfRange => ascii "strconv.Atoi: parsing " ++ quoted value ++ ascii ": value out of range"

namespace Setting

/-- The spellings of a truth value. -/
def spellings : Bool → List Bytes
  | true => [ascii "1", ascii "t", ascii "T", ascii "true", ascii "TRUE", ascii "True"]
  | false => [ascii "0", ascii "f", ascii "F", ascii "false", ascii "FALSE", ascii "False"]

def readSwitch (value : Bytes) : Except ValueFault Bool :=
  if (spellings true).contains value then .ok true
  else if (spellings false).contains value then .ok false
  else .error .notSwitch

/-- Reads on in a natural number below `2 ^ 64`, of which `n` has been read.  What comes first
decides: a byte that is not a digit, or a digit that makes the number too large. -/
def readDigits (n : Nat) : Bytes → Except ValueFault Nat
  | [] => .ok n
  | b :: rest =>
    if Byte.isDigit b then
      let next := n * 10 + (b.toNat - 0x30)
      if next < 0x10000000000000000 then readDigits next rest else .error .outOfRange
    else .error .notNumber

def readMagnitude (digits : Bytes) : Except ValueFault Nat :=
  if digits.isEmpty then .error .notNumber else readDigits 0 digits

def readInteger (value : Bytes) : Except ValueFault Int :=
  match value with
  | 0x2D :: digits => do
    let n ← readMagnitude digits
    if n ≤ 0x8000000000000000 then return -n else throw .outOfRange
  | 0x2B :: digits => do
    let n ← readMagnitude digits
    if n < 0x8000000000000000 then return n else throw .outOfRange
  | digits => do
    let n ← readMagnitude digits
    if n < 0x8000000000000000 then return n else throw .outOfRange

/-- The value of the verbosity: the low 32 bits of an integer, with sign. -/
def readVerbosity (value : Bytes) : Except ValueFault Int :=
  return (← readInteger value).bmod 0x100000000

end Setting

end HackAssembly
