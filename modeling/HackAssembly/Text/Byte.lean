/-!
# Texts as bytes

Sources, binary words, symbol names and messages are all sequences of bytes: nothing is assumed
about their encoding, and a position or a length always counts bytes.

* `Bytes`: a text.  `ascii s` is the text of an ASCII string literal.
* `Byte.isDigit`, `Byte.isLetter`, `Byte.isBlank`: the three classes of bytes that the assembly
  language distinguishes.  All three are ASCII classes: a byte of `0x80` or more is in none.
-/

namespace HackAssembly

/-- A text: a sequence of bytes. -/
abbrev Bytes := List UInt8

/-- The text of an ASCII string, one byte per character. -/
def ascii (s : String) : Bytes := s.toList.map fun c => c.toNat.toUInt8

namespace Byte

/-! ## Marks -/

def lineFeed : UInt8 := 0x0A

def carriageReturn : UInt8 := 0x0D

def atSign : UInt8 := 0x40

def equalsSign : UInt8 := 0x3D

def semicolon : UInt8 := 0x3B

def openParen : UInt8 := 0x28

def closeParen : UInt8 := 0x29

/-! ## Classes -/

def isDigit (b : UInt8) : Bool := 0x30 ≤ b && b ≤ 0x39

def isLetter (b : UInt8) : Bool := (0x61 ≤ b && b ≤ 0x7A) || (0x41 ≤ b && b ≤ 0x5A)

/-- The six ASCII white space bytes: the space and `0x09` to `0x0D`. -/
def isBlank (b : UInt8) : Bool := b == 0x20 || (0x09 ≤ b && b ≤ 0x0D)

end Byte

end HackAssembly
