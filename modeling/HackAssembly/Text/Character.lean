import HackAssembly.Text.Byte

/-!
# Characters in a text

A text is bytes, but messages show it as characters where it has some.  `characters` cuts a text
from left to right into the characters that its bytes encode in UTF-8 and the stray bytes that
encode none.  Overlong forms, surrogates and code points above U+10FFFF encode nothing, and neither
does a truncated form: its bytes are stray, one by one.
-/

namespace HackAssembly

/-- A piece of a text: a character with its encoding, or a byte that belongs to none. -/
inductive Piece where
  | character (c : Char)
  | stray (b : UInt8)
  deriving DecidableEq

def leadingCharacter? (s : Bytes) : Option Char := (s.take 4).toByteArray.utf8DecodeChar? 0

/-- Cuts a text into pieces after skipping `skip` bytes, behind the pieces `done`. -/
def characters.cut (done : Array Piece) (skip : Nat) : Bytes → Array Piece
  | [] => done
  | b :: rest =>
    match skip with
    | skip + 1 => cut done skip rest
    | 0 =>
      match leadingCharacter? (b :: rest) with
      | some c => cut (done.push (.character c)) (c.utf8Size - 1) rest
      | none => cut (done.push (.stray b)) 0 rest

/-- The characters and stray bytes of a text, from left to right. -/
def characters (s : Bytes) : List Piece := (characters.cut #[] 0 s).toList

def encodeCharacter (c : Char) : Bytes := String.utf8EncodeChar c

end HackAssembly
