import HackAssembly.Text.Byte

/-!
# Lines and chunks

A source text is cut into lines at six line ends: `\n`, `\r\n`, a lone `\r`, and the encodings of
U+0085, U+2028 and U+2029.  The pair `\r\n` is always one line end.  A last line without a line end
counts only when it is not empty.

Input is read in *chunks*, each up to and including the next `\n`, with a *rest* after the last
one.  Each chunk is then cut into lines by itself.  A line end that contains `\n` ends with it, so
no line end straddles two chunks.

* `LineEnd`, `LineEnd.bytes`, `LineEnd.split?`: the six line ends, their bytes, and the one that a
  text starts with.
* `lines`: the lines of a text, without their line ends.  One step of the cutting is either
  `lines.cut_of_split?`, at a line end, or `lines.cut_cons`, elsewhere.
* `chunks`: the chunks of a text and the rest after the last one.  They make up the text
  (`flatten_chunks`).
-/

namespace HackAssembly

/-! ## Line ends -/

inductive LineEnd where
  | crlf
  | cr
  | lf
  | nextLine
  | lineSeparator
  | paragraphSeparator
  deriving DecidableEq

namespace LineEnd

def bytes : LineEnd → Bytes
  | crlf => [0x0D, 0x0A]
  | cr => [0x0D]
  | lf => [0x0A]
  | nextLine => [0xC2, 0x85]
  | lineSeparator => [0xE2, 0x80, 0xA8]
  | paragraphSeparator => [0xE2, 0x80, 0xA9]

def split? : Bytes → Option (LineEnd × Bytes)
  | 0x0D :: 0x0A :: rest => some (crlf, rest)
  | 0x0D :: rest => some (cr, rest)
  | 0x0A :: rest => some (lf, rest)
  | 0xC2 :: 0x85 :: rest => some (nextLine, rest)
  | 0xE2 :: 0x80 :: 0xA8 :: rest => some (lineSeparator, rest)
  | 0xE2 :: 0x80 :: 0xA9 :: rest => some (paragraphSeparator, rest)
  | _ => none

theorem eq_append_of_split? {s rest : Bytes} {e : LineEnd} (h : split? s = some (e, rest)) :
    s = e.bytes ++ rest := by
  fun_cases split? s with
  | case7 => simp_all [split?]
  | _ =>
    obtain ⟨rfl, rfl⟩ : _ = e ∧ _ = rest := by simpa [split?] using h
    rfl

theorem length_lt_of_split? {s rest : Bytes} {e : LineEnd} (h : split? s = some (e, rest)) :
    rest.length < s.length := by
  rw [eq_append_of_split? h]
  cases e <;> simp [bytes] <;> omega

end LineEnd

/-! ## Lines -/

/-- Cuts a text into lines, behind the lines `done`; `current` holds the bytes of the current line
in reverse. -/
def lines.cut (done : Array Bytes) (current : Bytes) : Bytes → Array Bytes
  | [] => if current.isEmpty then done else done.push current.reverse
  | 0x0D :: 0x0A :: rest => cut (done.push current.reverse) [] rest
  | 0x0D :: rest => cut (done.push current.reverse) [] rest
  | 0x0A :: rest => cut (done.push current.reverse) [] rest
  | 0xC2 :: 0x85 :: rest => cut (done.push current.reverse) [] rest
  | 0xE2 :: 0x80 :: 0xA8 :: rest => cut (done.push current.reverse) [] rest
  | 0xE2 :: 0x80 :: 0xA9 :: rest => cut (done.push current.reverse) [] rest
  | b :: rest => cut done (b :: current) rest

def lines (s : Bytes) : List Bytes := (lines.cut #[] [] s).toList

namespace lines

/-- At a line end the current line is complete. -/
theorem cut_of_split? {s rest : Bytes} {e : LineEnd} (h : LineEnd.split? s = some (e, rest))
    (done : Array Bytes) (current : Bytes) :
    cut done current s = cut (done.push current.reverse) [] rest := by
  fun_cases LineEnd.split? s <;> simp_all [LineEnd.split?, cut]

/-- Elsewhere the current line gets one more byte. -/
theorem cut_cons {b : UInt8} {rest : Bytes} (h : LineEnd.split? (b :: rest) = none)
    (done : Array Bytes) (current : Bytes) :
    cut done current (b :: rest) = cut done (b :: current) rest := by
  rw [cut.eq_8]
  -- a byte that one of the other patterns speaks of starts a line end
  all_goals
    intros
    subst_vars
    revert h
    simp only [LineEnd.split?]
    try split
    all_goals simp_all

/-- The lines already cut stay in front. -/
theorem toList_cut (done : Array Bytes) (current s : Bytes) :
    (cut done current s).toList = done.toList ++ (cut #[] current s).toList := by
  induction h : s.length using Nat.strongRecOn generalizing done current s with
  | ind n ih =>
    cases hs : LineEnd.split? s with
    | some p =>
      obtain ⟨e, rest⟩ := p
      have hlt : rest.length < n := h ▸ LineEnd.length_lt_of_split? hs
      rw [cut_of_split? hs, cut_of_split? hs, ih _ hlt (done.push _) [] rest rfl,
        ih _ hlt (#[].push _) [] rest rfl]
      simp
    | none =>
      cases s with
      | nil => by_cases hc : current.isEmpty <;> simp [cut, hc]
      | cons b rest =>
        have hlt : rest.length < n := by simp at h; omega
        rw [cut_cons hs, cut_cons hs, ih _ hlt done (b :: current) rest rfl]

end lines

/-! ## Chunks -/

/-- Cuts a text into chunks, behind the chunks `done`; `current` holds the bytes since the last line
feed in reverse. -/
def chunks.cut (done : Array Bytes) (current : Bytes) : Bytes → Array Bytes × Bytes
  | [] => (done, current.reverse)
  | b :: rest =>
    if b == Byte.lineFeed then cut (done.push (b :: current).reverse) [] rest
    else cut done (b :: current) rest

/-- The chunks of a text, each ended by its only line feed, and the rest after the last one. -/
def chunks (s : Bytes) : List Bytes × Bytes :=
  let (done, rest) := chunks.cut #[] [] s
  (done.toList, rest)

theorem chunks.flatten_cut (done : Array Bytes) (current s : Bytes) :
    (cut done current s).1.toList.flatten ++ (cut done current s).2
      = done.toList.flatten ++ current.reverse ++ s := by
  fun_induction cut done current s <;> simp_all

/-- The chunks and the rest make up the text. -/
theorem flatten_chunks (s : Bytes) : (chunks s).1.flatten ++ (chunks s).2 = s := by
  simpa [chunks] using chunks.flatten_cut #[] [] s

end HackAssembly
