import HackAssembly.Text.Character
import HackAssembly.Text.Printable

/-!
# Quoted texts

Messages about a malformed word show it in quotes, so that every byte of it can be told apart: a
printable character stands for itself, the quote and the backslash are escaped, seven controls have
short escapes, the other ASCII controls and the stray bytes are written `\xhh`, and what remains is
written `\uhhhh`, or `\Uhhhhhhhh` above U+FFFF, in lower case hexadecimal.

`quoted` puts a text in double quotes, `quotedCode` a single code point in single quotes.
-/

namespace HackAssembly

namespace Quoted

/-- The lower case hexadecimal form of a number in exactly `width` digits. -/
def hexadecimal (width n : Nat) : Bytes :=
  ascii (String.ofList ((Nat.toDigits 16 n).leftpad width '0'))

/-- The letter after the backslash for the controls that have a short escape. -/
def shortEscape? (code : Nat) : Option Bytes :=
  match code with
  | 0x07 => some (ascii "\\a")
  | 0x08 => some (ascii "\\b")
  | 0x0C => some (ascii "\\f")
  | 0x0A => some (ascii "\\n")
  | 0x0D => some (ascii "\\r")
  | 0x09 => some (ascii "\\t")
  | 0x0B => some (ascii "\\v")
  | _ => none

def byteEscape (b : Nat) : Bytes := ascii "\\x" ++ hexadecimal 2 b

/-- A character as it appears between two quotes `mark`. -/
def escape (mark : Char) (c : Char) : Bytes :=
  if c == mark || c == Char.ofNat 0x5C then 0x5C :: encodeCharacter c
  else if isPrintable c then encodeCharacter c
  else match shortEscape? c.toNat with
    | some text => text
    | none =>
      if c.toNat < 0x20 || c.toNat == 0x7F then byteEscape c.toNat
      else if c.toNat < 0x10000 then ascii "\\u" ++ hexadecimal 4 c.toNat
      else ascii "\\U" ++ hexadecimal 8 c.toNat

def escapePiece (mark : Char) : Piece → Bytes
  | .character c => escape mark c
  | .stray b => byteEscape b.toNat

end Quoted

def quoted (s : Bytes) : Bytes :=
  0x22 :: (characters s).flatMap (Quoted.escapePiece (Char.ofNat 0x22)) ++ [0x22]

/-- The character whose code point is a byte's number, in single quotes. -/
def quotedCode (b : UInt8) : Bytes :=
  0x27 :: Quoted.escape (Char.ofNat 0x27) (Char.ofNat b.toNat) ++ [0x27]

end HackAssembly
