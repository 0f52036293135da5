import HackAssembly.Proofs.Gathering
import HackAssembly.Proofs.Renumbering
import HackAssembly.Text.Character

/-!
# Reading a source

A source is read in chunks, and each chunk is cut into lines by itself, byte by byte.  This module
says that neither matters: the first pass does what it would do with the lines of the whole text
(`takeIn`), and these are the lines between the *characters* that end a line.  It follows that a
text may be read in parts, one pass after the other, as long as no line is cut in two.

For the characters the text is decoded from left to right, and what cannot be decoded is stray bytes
(`characters`).  A line end starts with the encoding of its first character, so a line that ends
byte by byte ends among the characters as well (`cutLines_of_split?`).  In the other direction, a
line end cannot start inside the encoding of a character: its first byte is one that encodings start
with, and these stand nowhere else in one (`split?_cons_eq_none`).  So the two ways of cutting stay
in step on whatever bytes, whether they are valid or not (`lines_eq_cutLines`).
-/

namespace HackAssembly

open Assembly LineEnd

/-! ## Characters of a text -/

theorem leadingCharacter?_append (c : Char) (rest : Bytes) :
    leadingCharacter? (encodeCharacter c ++ rest) = some c := by
  have hsize : (encodeCharacter c).length ≤ 4 := by
    rw [encodeCharacter, String.length_utf8EncodeChar]
    exact c.utf8Size_le_four
  rw [leadingCharacter?, List.take_append, List.take_of_length_le hsize, List.toByteArray_append]
  exact ByteArray.utf8DecodeChar?_utf8EncodeChar_append

theorem exists_append_of_leadingCharacter? {s : Bytes} {c : Char}
    (h : leadingCharacter? s = some c) : ∃ rest, s = encodeCharacter c ++ rest := by
  have heq := congrArg (fun b => b.data.toList) (ByteArray.eq_of_utf8DecodeChar?_eq_some h)
  simp only [ByteArray.data_append, Array.toList_append, List.toList_data_toByteArray] at heq
  obtain ⟨tail, htail⟩ : ∃ tail, s.take 4 = encodeCharacter c ++ tail := ⟨_, heq⟩
  refine ⟨tail ++ s.drop 4, ?_⟩
  rw [← List.append_assoc, ← htail, List.take_append_drop]

namespace characters

theorem cut_skip (done : Array Piece) (skip : Nat) (s : Bytes) :
    cut done skip s = cut done 0 (s.drop skip) := by
  induction s generalizing skip with
  | nil => rw [List.drop_nil, cut, cut]
  | cons b s ih =>
    cases skip with
    | zero => rfl
    | succ skip => rw [cut, ih, List.drop_succ_cons]

theorem toList_cut (done : Array Piece) (skip : Nat) (s : Bytes) :
    (cut done skip s).toList = done.toList ++ (cut #[] skip s).toList := by
  induction s generalizing done skip with
  | nil => simp [cut]
  | cons b s ih =>
    cases skip with
    | succ skip => rw [cut, cut, ih]
    | zero =>
      rw [cut, cut]
      split
      · rw [ih (done.push _), ih (#[].push _)]
        simp
      · rw [ih (done.push _), ih (#[].push _)]
        simp

end characters

theorem characters_append (c : Char) (rest : Bytes) :
    characters (encodeCharacter c ++ rest) = .character c :: characters rest := by
  have hlead := leadingCharacter?_append c rest
  have hlength : (encodeCharacter c).length = c.utf8Size := String.length_utf8EncodeChar c
  cases hbytes : encodeCharacter c with
  | nil => exact absurd hbytes String.utf8EncodeChar_ne_nil
  | cons b tail =>
    rw [hbytes] at hlead hlength
    have htail : c.utf8Size - 1 = tail.length := by
      rw [← hlength]
      simp
    rw [List.cons_append] at hlead ⊢
    rw [characters, characters.cut, hlead]
    dsimp only
    rw [htail, characters.cut_skip, List.drop_left, characters.toList_cut]
    rfl

theorem characters_cons_of_none {b : UInt8} {rest : Bytes}
    (h : leadingCharacter? (b :: rest) = none) :
    characters (b :: rest) = .stray b :: characters rest := by
  rw [characters, characters.cut, h]
  dsimp only
  rw [characters.toList_cut]
  rfl

/-! ## Lines of characters -/

def Piece.bytes : Piece → Bytes
  | character c => encodeCharacter c
  | stray b => [b]

def Piece.endsLine : Piece → Bool
  | character c => ['\n', '\r', '\u0085', '\u2028', '\u2029'].contains c
  | stray _ => false

/-- Cuts pieces into lines, where `current` holds the bytes of the first line so far. -/
def cutLines (current : Bytes) : List Piece → List Bytes
  | [] => if current.isEmpty then [] else [current]
  | .character '\r' :: .character '\n' :: rest => current :: cutLines [] rest
  | piece :: rest =>
    if piece.endsLine then current :: cutLines [] rest
    else cutLines (current ++ piece.bytes) rest

theorem cutLines_cons {piece : Piece} {rest : List Piece}
    (h : ¬ (piece = .character '\r' ∧ rest.head? = some (.character '\n'))) (current : Bytes) :
    cutLines current (piece :: rest) = if piece.endsLine then current :: cutLines [] rest
      else cutLines (current ++ piece.bytes) rest := by
  rw [cutLines.eq_3]
  intro later hpiece hrest
  exact h ⟨hpiece, by rw [hrest]; rfl⟩

def LineEnd.character : LineEnd → Char
  | crlf => '\r'
  | cr => '\r'
  | lf => '\n'
  | nextLine => '\u0085'
  | lineSeparator => '\u2028'
  | paragraphSeparator => '\u2029'

theorem LineEnd.bytes_eq (e : LineEnd) :
    e.bytes = encodeCharacter e.character ++ if e = crlf then encodeCharacter '\n' else [] := by
  cases e <;> decide

theorem LineEnd.endsLine_character (e : LineEnd) : (Piece.character e.character).endsLine := by
  cases e <;> decide

theorem exists_lineEnd {c : Char} (h : (Piece.character c).endsLine) :
    ∃ e : LineEnd, e.bytes = encodeCharacter c := by
  simp only [Piece.endsLine, List.contains_iff_mem, List.mem_cons, List.not_mem_nil, or_false] at h
  rcases h with rfl | rfl | rfl | rfl | rfl
  · exact ⟨lf, by decide⟩
  · exact ⟨cr, by decide⟩
  · exact ⟨nextLine, by decide⟩
  · exact ⟨lineSeparator, by decide⟩
  · exact ⟨paragraphSeparator, by decide⟩

theorem head?_of_head?_characters {s : Bytes}
    (h : (characters s).head? = some (.character '\n')) : s.head? = some 0x0A := by
  cases s with
  | nil => cases h
  | cons b s =>
    cases hlead : leadingCharacter? (b :: s) with
    | none =>
      rw [characters_cons_of_none hlead] at h
      cases h
    | some c =>
      obtain ⟨rest, hrest⟩ := exists_append_of_leadingCharacter? hlead
      rw [hrest, characters_append] at h
      obtain rfl : c = '\n' := by simpa using h
      rw [hrest]
      rfl

/-- At a line end the current line is complete. -/
theorem cutLines_of_split? {s rest : Bytes} {e : LineEnd} (h : split? s = some (e, rest))
    (current : Bytes) :
    cutLines current (characters s) = current :: cutLines [] (characters rest) := by
  rw [eq_append_of_split? h, LineEnd.bytes_eq, List.append_assoc, characters_append]
  by_cases hcrlf : e = crlf
  · rw [if_pos hcrlf, characters_append, hcrlf]
    rfl
  · rw [if_neg hcrlf, List.nil_append, cutLines_cons, if_pos e.endsLine_character]
    rintro ⟨hcr, hhead⟩
    obtain rfl : e = cr := by
      cases e with
      | crlf => exact absurd rfl hcrlf
      | cr => rfl
      | _ => exact absurd hcr (by decide)
    exact head?_ne_of_split?_cr h (head?_of_head?_characters hhead)

/-! ## Bytes that go on with a character -/

theorem split?_cons_eq_none {b : UInt8} (h : ¬ b.IsUTF8FirstByte) (rest : Bytes) :
    split? (b :: rest) = none := by
  by_contra hsome
  obtain ⟨⟨e, later⟩, hsplit⟩ := Option.ne_none_iff_exists'.1 hsome
  have hhead := congrArg List.head? (eq_append_of_split? hsplit)
  have hfirst : ∀ d : LineEnd, ∃ x ∈ (d.bytes ++ later).head?, x.IsUTF8FirstByte := by
    intro d
    cases d <;> exact ⟨_, rfl, by decide⟩
  obtain ⟨x, hx, hfirst⟩ := hfirst e
  rw [← hhead] at hx
  obtain rfl : b = x := by simpa using hx
  exact h hfirst

theorem lines.cut_continuation {t : Bytes} (h : ∀ b ∈ t, ¬ b.IsUTF8FirstByte) (done : Array Bytes)
    (current rest : Bytes) :
    cut done current (t ++ rest) = cut done (t.reverse ++ current) rest := by
  induction t generalizing current with
  | nil => rfl
  | cons b t ih =>
    have hnone := split?_cons_eq_none (h b List.mem_cons_self) (t ++ rest)
    rw [List.cons_append, cut_cons hnone, ih fun x hx => h x (List.mem_cons_of_mem b hx),
      List.reverse_cons, List.append_assoc, List.singleton_append]

theorem not_isUTF8FirstByte_of_mem {c : Char} {b : UInt8} {tail : Bytes}
    (h : encodeCharacter c = b :: tail) : ∀ x ∈ tail, ¬ x.IsUTF8FirstByte := by
  intro x hx hfirst
  obtain ⟨i, hi, rfl⟩ := List.getElem_of_mem hx
  have hbytes : String.utf8EncodeChar c = b :: tail := h
  have hlt : i + 1 < (String.utf8EncodeChar c).length := by
    rw [hbytes, List.length_cons]
    omega
  have hget : (String.utf8EncodeChar c)[i + 1] = tail[i] := by
    simp only [hbytes, List.getElem_cons_succ]
  have hzero := UInt8.isUTF8FirstByte_getElem_utf8EncodeChar.1 (hget ▸ hfirst)
  omega

/-- Where no line end starts, a whole character goes into the current line. -/
theorem lines.cut_character {c : Char} {rest : Bytes}
    (h : split? (encodeCharacter c ++ rest) = none) (done : Array Bytes) (current : Bytes) :
    cut done current (encodeCharacter c ++ rest)
      = cut done ((encodeCharacter c).reverse ++ current) rest := by
  cases hbytes : encodeCharacter c with
  | nil => exact absurd hbytes String.utf8EncodeChar_ne_nil
  | cons b tail =>
    rw [hbytes, List.cons_append] at h
    rw [List.cons_append, cut_cons h, cut_continuation (not_isUTF8FirstByte_of_mem hbytes),
      List.reverse_cons, List.append_assoc, List.singleton_append]

/-- **The lines of a text are the lines of its characters.** -/
theorem lines_eq_cutLines (s : Bytes) : lines s = cutLines [] (characters s) := by
  suffices hcut : ∀ current, (lines.cut #[] current s).toList
      = cutLines current.reverse (characters s) from hcut []
  intro current
  induction h : s.length using Nat.strongRecOn generalizing current s with
  | ind n ih =>
    cases hsplit : split? s with
    | some p =>
      obtain ⟨e, rest⟩ := p
      have hlt : rest.length < n := h ▸ length_lt_of_split? hsplit
      rw [lines.cut_of_split? hsplit, lines.toList_cut, ih rest.length hlt rest [] rfl,
        cutLines_of_split? hsplit]
      rfl
    | none =>
      cases s with
      | nil =>
        have hnil : characters [] = [] := rfl
        rw [hnil, cutLines, lines.cut, List.isEmpty_reverse]
        split <;> rfl
      | cons b s =>
        cases hlead : leadingCharacter? (b :: s) with
        | none =>
          rw [lines.cut_cons hsplit, characters_cons_of_none hlead, cutLines_cons (by simp),
            ih s.length (by rw [← h]; simp) s (b :: current) rfl, List.reverse_cons]
          rfl
        | some c =>
          obtain ⟨rest, hrest⟩ := exists_append_of_leadingCharacter? hlead
          have hends : ¬ (Piece.character c).endsLine := by
            intro hends
            obtain ⟨e, he⟩ := exists_lineEnd hends
            rw [hrest, ← he] at hsplit
            exact split?_bytes_append_ne_none e rest hsplit
          have hreturn : Piece.character c ≠ .character '\r' := by
            intro hc
            exact hends (by rw [hc]; decide)
          have hlt : rest.length < n := by
            rw [← h, hrest, List.length_append]
            have hpos := List.length_pos_of_ne_nil (String.utf8EncodeChar_ne_nil (c := c))
            rw [encodeCharacter]
            omega
          rw [hrest] at hsplit ⊢
          rw [lines.cut_character hsplit, ih rest.length hlt rest _ rfl, characters_append,
            cutLines_cons fun hc => hreturn hc.1, if_neg hends, List.reverse_append,
            List.reverse_reverse]
          rfl

/-! ## Line by line -/

/-- Takes in some lines, one after the other up to the first fault: each one is counted and then
looked at in its normalised form. -/
def takeIn : List Bytes → Assembler → Outcome Unit
  | [], a => .ok () a
  | line :: later, a =>
    match (gatherContent (normalise line)).run { a with line := a.line + 1 } with
    | .ok _ b => takeIn later b
    | .error fault b => .error fault b

theorem run_forM_gatherLine_eq (ls : List Bytes) (a : Assembler) :
    (ls.forM gatherLine).run a = takeIn ls a := by
  induction ls generalizing a with
  | nil => rfl
  | cons line later ih =>
    have hline : (gatherLine line).run a
        = (gatherContent (normalise line)).run { a with line := a.line + 1 } := rfl
    rw [List.forM_eq_forM, List.forM_cons, EStateM.run_bind, hline, takeIn]
    cases (gatherContent (normalise line)).run { a with line := a.line + 1 } with
    | ok _ b => exact ih b
    | error fault b => rfl

theorem gather_append {s t : Bytes} (hs : Complete s) (hst : ¬ Straddled s t) :
    gather { bytes := s ++ t, failure := none }
      = gather { bytes := s, failure := none } >>= fun _ =>
        gather { bytes := t, failure := none } := by
  rw [gather_eq_forM, gather_eq_forM, gather_eq_forM, lines_append hs hst, forM_append]

/-- **Reading is compositional.**  From every state, the first pass over a text takes in the lines
of the whole text, which are those between its line-ending characters, up to the first fault.  Over
two texts laid end to end it is the first pass over the one and, if that succeeds, over the other,
as long as the first text is empty or ends with a line end and the two do not meet inside a
`\r\n`. -/
theorem reading_is_compositional (a : Assembler) :
    (∀ s, lines s = cutLines [] (characters s) ∧
      (gather { bytes := s, failure := none }).run a = takeIn (lines s) a) ∧
    ∀ s t, Complete s → ¬ Straddled s t →
      (gather { bytes := s ++ t, failure := none }).run a
        = match (gather { bytes := s, failure := none }).run a with
          | .ok _ b => (gather { bytes := t, failure := none }).run b
          | .error fault b => .error fault b := by
  refine ⟨fun s => ⟨lines_eq_cutLines s, ?_⟩, fun s t hs hst => ?_⟩
  · rw [gather_eq_forM, run_forM_gatherLine_eq]
  · rw [gather_append hs hst]
    cases hrun : (gather { bytes := s, failure := none }).run a with
    | ok _ b => exact run_bind_of_ok hrun _
    | error fault b => exact run_bind_of_error hrun _

/-- The first text ends with a lone `\r`.  The second one starts with a label declaration that is
broken off inside the encoding of a character, and is rejected for that. -/
theorem reading_is_compositional_truncated :
    Complete (ascii "@x\r") ∧ ¬ Straddled (ascii "@x\r") (0x28 :: 0xE2 :: 0x80 :: ascii "\n@y") ∧
      ∃ b c, (gather ⟨ascii "@x\r", none⟩).run (.fresh .strict) = .ok () b ∧
        (gather ⟨0x28 :: 0xE2 :: 0x80 :: ascii "\n@y", none⟩).run b
          = .error (.rejected ⟨2, [0x28, 0xE2, 0x80], .labelForm⟩) c ∧
        (gather ⟨ascii "@x\r" ++ 0x28 :: 0xE2 :: 0x80 :: ascii "\n@y", none⟩).run (.fresh .strict)
          = .error (.rejected ⟨2, [0x28, 0xE2, 0x80], .labelForm⟩) c := by
  have hs : Complete (ascii "@x\r") := Or.inr ⟨ascii "@x", .cr, by decide⟩
  have hst : ¬ Straddled (ascii "@x\r") (0x28 :: 0xE2 :: 0x80 :: ascii "\n@y") :=
    fun h => absurd h.2 (by decide)
  have hfault : Outcome.fault?
      ((gather ⟨ascii "@x\r" ++ 0x28 :: 0xE2 :: 0x80 :: ascii "\n@y", none⟩).run (.fresh .strict))
        = some (.rejected ⟨2, [0x28, 0xE2, 0x80], .labelForm⟩) := by decide +kernel
  have hnone : Outcome.fault? ((gather ⟨ascii "@x\r", none⟩).run (.fresh .strict)) = none := by
    decide +kernel
  obtain ⟨c, hc⟩ := Outcome.fault?_eq_some.1 hfault
  have hparts := (reading_is_compositional (.fresh .strict)).2 _ _ hs hst
  rw [hc] at hparts
  cases hrun : (gather ⟨ascii "@x\r", none⟩).run (.fresh .strict) with
  | ok _ b =>
    rw [hrun] at hparts
    exact ⟨hs, hst, b, c, rfl, hparts.symm, hc⟩
  | error fault b =>
    rw [hrun] at hnone
    cases hnone

end HackAssembly
