import HackAssembly.Text.Byte

/-!
# Symbols

A symbol names an address.  It starts with a letter or one of `_`, `.`, `$`, `:`, and goes on with
these and digits.
-/

namespace HackAssembly.Symbol

def isStart (b : UInt8) : Bool :=
  Byte.isLetter b || b == 0x5F || b == 0x2E || b == 0x24 || b == 0x3A

def isPart (b : UInt8) : Bool := isStart b || Byte.isDigit b

def isSymbol : Bytes → Bool
  | [] => false
  | b :: rest => isStart b && rest.all isPart

end HackAssembly.Symbol
