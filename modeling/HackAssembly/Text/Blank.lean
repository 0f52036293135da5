import HackAssembly.Text.Byte

/-!
# White space around a text

Around a binary word any Unicode white space may stand.  In a text of bytes this is one of the
twenty-five byte sequences that encode a white space character, so trimming removes encodings: as
long as the text starts with one, from the left, and then as long as it ends with one, from the
right.  No encoding is a proper part of another, so the two ends can be trimmed in either order.
-/

namespace HackAssembly

namespace Blank

/-- The encodings of the white space characters: U+0009 to U+000D and the space, U+0085, U+00A0,
U+1680, U+2000 to U+200A, U+2028, U+2029, U+202F, U+205F and U+3000. -/
def encodings : List Bytes :=
  [[0x20], [0x09], [0x0A], [0x0B], [0x0C], [0x0D], [0xC2, 0x85], [0xC2, 0xA0], [0xE1, 0x9A, 0x80],
    [0xE2, 0x80, 0x80], [0xE2, 0x80, 0x81], [0xE2, 0x80, 0x82], [0xE2, 0x80, 0x83],
    [0xE2, 0x80, 0x84], [0xE2, 0x80, 0x85], [0xE2, 0x80, 0x86], [0xE2, 0x80, 0x87],
    [0xE2, 0x80, 0x88], [0xE2, 0x80, 0x89], [0xE2, 0x80, 0x8A], [0xE2, 0x80, 0xA8],
    [0xE2, 0x80, 0xA9], [0xE2, 0x80, 0xAF], [0xE2, 0x81, 0x9F], [0xE3, 0x80, 0x80]]

/-- Removes encodings of `blanks` from the front of a text, after `skip` bytes of one already
found. -/
def strip (blanks : List Bytes) (skip : Nat) : Bytes → Bytes
  | [] => []
  | b :: rest =>
    match skip with
    | skip + 1 => strip blanks skip rest
    | 0 =>
      match blanks.find? (·.isPrefixOf (b :: rest)) with
      | some blank => strip blanks (blank.length - 1) rest
      | none => b :: rest

end Blank

/-- A text without the white space at its two ends. -/
def trimmed (s : Bytes) : Bytes :=
  let front := Blank.strip Blank.encodings 0 s
  (Blank.strip (Blank.encodings.map List.reverse) 0 front.reverse).reverse

end HackAssembly
