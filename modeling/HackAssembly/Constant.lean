import HackAssembly.SymbolTable

/-!
# Reading a constant

A decimal constant may be of any length.  Its low fifteen bits are kept by reducing after each
digit; whether it fits into them is decided by a second sum that stops growing as soon as it is too
large.  Both sums are 32-bit words and neither can wrap: the first is below `2 ^ 15` before each
digit, and the second is at most `2 ^ 15 - 1` whenever it grows.

`Constant.read` gives the low bits and whether the constant is too large.
-/

namespace HackAssembly.Constant

def largest : UInt32 := 0x7FFF

/-- What is known about a constant after some of its digits. -/
structure Reading where
  /-- The low fifteen bits of the value. -/
  low : UInt32 := 0
  /-- The value, as long as it is not too large. -/
  value : UInt32 := 0
  tooLarge : Bool := false
  deriving DecidableEq

def Reading.next (r : Reading) (b : UInt8) : Reading :=
  let digit := (b - 0x30).toUInt32
  let low := (r.low * 10 + digit) &&& largest
  if r.tooLarge then { r with low }
  else
    let value := r.value * 10 + digit
    { low, value, tooLarge := largest < value }

/-- The low fifteen bits of a constant, and whether it is larger than they can hold. -/
def read (digits : Bytes) : Address × Bool :=
  let reading := digits.foldl Reading.next {}
  (reading.low.toUInt16, reading.tooLarge)

end HackAssembly.Constant
