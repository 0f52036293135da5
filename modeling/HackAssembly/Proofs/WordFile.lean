import HackAssembly.Disassembly
import HackAssembly.Proofs.Lines
import Mathlib.Data.List.Find

/-!
# Files of words

When a binary file can be disassembled, and what comes out then (`disassembleAll_eq_ok`): its words
are those of some instructions, and the result is their canonical texts.

* `Instruction.digits`: the word of an instruction in digits.  No other text is read as that
  instruction (`ofDigits_eq_ok`).
* `wordsIn`: the words in a file, said without the reading of it: its lines, each trimmed, blank
  ones left out.

Reading removes a carriage return at the end of a line before it trims the line.  That does not
matter for the words: a carriage return is white space, and trimming removes it anyway
(`trimmed_withoutReturn`).
-/

namespace HackAssembly

/-! ## One word -/

def Instruction.digits (i : Instruction) : Bytes := Binary.render i.encode

theorem Word.read_eq_ok {text : Bytes} {word : Word} :
    Word.read text = .ok word ↔ text = Binary.render word := by
  constructor
  · intro h
    rw [Word.read] at h
    split at h
    · next hlength =>
      split at h
      · next hfind =>
        rw [← Except.ok.inj h, Binary.render_value hlength]
        rw [List.find?_eq_none] at hfind
        exact List.all_eq_true.2 fun b hb => by simpa using hfind b hb
      · simp at h
    · simp at h
  · rintro rfl
    have hfind : (Binary.render word).find? (!Binary.isDigit ·) = none := by
      rw [List.find?_eq_none]
      intro b hb
      simp [Binary.isDigit_of_mem_render hb]
    rw [Word.read, if_pos (Binary.length_render word), hfind]
    exact congrArg Except.ok (Binary.value_render word)

theorem ofDigits_eq_ok_iff_decode {text : Bytes} {i : Instruction} :
    Instruction.ofDigits text = .ok i ↔
      ∃ word, Word.read text = .ok word ∧ Instruction.decode word = .ok i := by
  rw [Instruction.ofDigits]
  cases Word.read text with
  | error fault => simp [bind, Except.bind]
  | ok word => cases h : Instruction.decode word <;> simp [bind, Except.bind, Except.mapError, h]

/-- **Only its own word** is read as an instruction. -/
theorem ofDigits_eq_ok {text : Bytes} {i : Instruction} :
    Instruction.ofDigits text = .ok i ↔ text = i.digits := by
  rw [ofDigits_eq_ok_iff_decode]
  constructor
  · rintro ⟨word, hword, hdecode⟩
    rw [Word.read_eq_ok.1 hword, Instruction.digits, Instruction.encode_of_decode hdecode]
  · intro htext
    exact ⟨i.encode, Word.read_eq_ok.2 htext, Instruction.decode_encode i⟩

theorem disassemble_eq_ok {text code : Bytes} :
    disassemble text = .ok code ↔ ∃ i : Instruction, text = i.digits ∧ code = i.render := by
  constructor
  · intro h
    rw [disassemble] at h
    split at h
    · next i hi => exact ⟨i, ofDigits_eq_ok.1 hi, (Except.ok.inj h).symm⟩
    · simp at h
  · rintro ⟨i, rfl, rfl⟩
    rw [disassemble, ofDigits_eq_ok.2 rfl]

theorem length_digits (i : Instruction) : i.digits.length = 16 := Binary.length_render _

theorem digits_ne_nil (i : Instruction) : i.digits ≠ [] := by
  intro h
  have hlength := length_digits i
  rw [h] at hlength
  exact absurd hlength (by decide)

/-! ## White space around a word -/

namespace Blank

variable {blanks : List Bytes} {s : Bytes}

theorem strip_eq_self (h : ∀ blank ∈ blanks, ¬ blank <+: s) : strip blanks 0 s = s := by
  cases s with
  | nil => rfl
  | cons b s =>
    have hfind : blanks.find? (·.isPrefixOf (b :: s)) = none := by
      rw [List.find?_eq_none]
      intro blank hblank hstarts
      have hbegins : blank <+: b :: s := List.isPrefixOf_iff_prefix.1 hstarts
      exact h blank hblank hbegins
    rw [strip, hfind]

/-- The only white space that ends in a carriage return is the carriage return. -/
theorem eq_carriageReturn_of_getLast? : ∀ blank ∈ encodings,
    blank.getLast? = some Byte.carriageReturn → blank = [Byte.carriageReturn] := by
  decide

theorem isPrefixOf_concat_carriageReturn {blank : Bytes} (hblank : blank ∈ encodings)
    (hs : s ≠ []) :
    blank.isPrefixOf (s ++ [Byte.carriageReturn]) = blank.isPrefixOf s := by
  rw [Bool.eq_iff_iff, List.isPrefixOf_iff_prefix, List.isPrefixOf_iff_prefix,
    List.prefix_concat_iff]
  refine or_iff_right ?_
  intro hwhole
  have hone := eq_carriageReturn_of_getLast? blank hblank (by rw [hwhole, List.getLast?_concat])
  rw [hwhole] at hone
  exact hs (List.append_eq_singleton_iff.1 hone |>.resolve_right (by simp)).1

/-- Trimming the front leaves a carriage return at the back alone, unless nothing else is left. -/
theorem strip_concat_carriageReturn {skip : Nat} (h : skip ≤ s.length) :
    strip encodings skip (s ++ [Byte.carriageReturn])
      = if strip encodings skip s = [] then []
        else strip encodings skip s ++ [Byte.carriageReturn] := by
  induction s generalizing skip with
  | nil =>
    obtain rfl : skip = 0 := Nat.le_zero.1 h
    decide
  | cons b s ih =>
    cases skip with
    | succ skip => exact ih (Nat.le_of_succ_le_succ h)
    | zero =>
      have hsame : encodings.find? (·.isPrefixOf (b :: s ++ [Byte.carriageReturn]))
          = encodings.find? (·.isPrefixOf (b :: s)) :=
        List.find?_congr fun blank hblank =>
          isPrefixOf_concat_carriageReturn hblank (List.cons_ne_nil b s)
      rw [List.cons_append] at hsame ⊢
      rw [strip, strip, hsame]
      cases hfind : encodings.find? (·.isPrefixOf (b :: s)) with
      | none => simp
      | some blank =>
        have hstarts := List.find?_some (p := fun u => List.isPrefixOf u (b :: s)) hfind
        have hbegins : blank <+: b :: s := List.isPrefixOf_iff_prefix.1 hstarts
        have hlength := hbegins.length_le
        rw [List.length_cons] at hlength
        exact ih (by omega)

/-- Trimming the back removes a carriage return there. -/
theorem strip_carriageReturn_cons (s : Bytes) :
    strip (encodings.map List.reverse) 0 (Byte.carriageReturn :: s)
      = strip (encodings.map List.reverse) 0 s := by
  rfl

end Blank

theorem trimmed_concat_carriageReturn (s : Bytes) :
    trimmed (s ++ [Byte.carriageReturn]) = trimmed s := by
  rw [trimmed, trimmed, Blank.strip_concat_carriageReturn (Nat.zero_le _)]
  split
  · next h => rw [h]
  · rw [List.reverse_append, List.reverse_singleton, List.singleton_append,
      Blank.strip_carriageReturn_cons]

theorem trimmed_withoutReturn (s : Bytes) : trimmed (withoutReturn s) = trimmed s := by
  rw [withoutReturn]
  split
  · next h =>
    rw [beq_iff_eq] at h
    obtain ⟨t, rfl⟩ := List.getLast?_eq_some_iff.1 h
    rw [List.dropLast_concat, trimmed_concat_carriageReturn]
  · rfl

theorem trimmed_of_isDigit {s : Bytes} (h : ∀ b ∈ s, Binary.isDigit b = true) : trimmed s = s := by
  have hmark : ∀ blank ∈ Blank.encodings, ∃ b ∈ blank, Binary.isDigit b = false := by decide
  have hfront : Blank.strip Blank.encodings 0 s = s := by
    apply Blank.strip_eq_self
    intro blank hblank hstarts
    obtain ⟨b, hb, hnot⟩ := hmark blank hblank
    rw [h b (hstarts.subset hb)] at hnot
    exact absurd hnot (by decide)
  have hback : Blank.strip (Blank.encodings.map List.reverse) 0 s.reverse = s.reverse := by
    apply Blank.strip_eq_self
    intro blank hblank hstarts
    obtain ⟨blank, hmem, rfl⟩ := List.mem_map.1 hblank
    obtain ⟨b, hb, hnot⟩ := hmark blank hmem
    rw [h b (List.mem_reverse.1 (hstarts.subset (List.mem_reverse.2 hb)))] at hnot
    exact absurd hnot (by decide)
  rw [trimmed, hfront, hback, List.reverse_reverse]

/-! ## Lines of a file -/

/-- The words in a file: its lines, each without the white space around it, blank ones left out. -/
def wordsIn (bytes : Bytes) : List Bytes :=
  ((bytes.splitOn Byte.lineFeed).map trimmed).filter (· ≠ [])

theorem binaryLines_of_notMem {s : Bytes} (h : Byte.lineFeed ∉ s) :
    binaryLines s = if s.isEmpty then [] else [⟨s, s.length < longestLine⟩] := by
  rw [binaryLines, chunks_of_notMem h]
  rfl

theorem binaryLines_append_lineFeed {s : Bytes} (h : Byte.lineFeed ∉ s) (t : Bytes) :
    binaryLines (s ++ Byte.lineFeed :: t)
      = ⟨s, s.length + 1 ≤ longestLine⟩ :: binaryLines t := by
  rw [binaryLines, chunks_append_lineFeed h, binaryLines]
  simp

/-- **The words in a file** are what its lines hold. -/
theorem filter_word_binaryLines (bytes : Bytes) :
    ((binaryLines bytes).map BinaryLine.word).filter (· ≠ []) = wordsIn bytes := by
  induction bytes using lineFeedInduction with
  | rest s h =>
    rw [binaryLines_of_notMem h, wordsIn, List.splitOn_eq_singleton h]
    split
    · next hempty =>
      rw [List.isEmpty_iff.1 hempty]
      rfl
    · rw [List.map_singleton, List.map_singleton, BinaryLine.word, trimmed_withoutReturn]
  | chunk s t h ih =>
    rw [binaryLines_append_lineFeed h, wordsIn,
      List.splitOn_append_cons_self_of_not_mem h, List.map_cons, List.map_cons, List.filter_cons,
      List.filter_cons, BinaryLine.word, trimmed_withoutReturn, ih, wordsIn]

/-! ## A whole file -/

theorem disassembleLine_eq_ok {number : Nat} {line : BinaryLine} {result : Option Bytes} :
    disassembleLine number line = .ok result ↔ line.fits = true ∧
      (line.word = [] ∧ result = none ∨
        ∃ i : Instruction, line.word = i.digits ∧ result = some i.render) := by
  rw [disassembleLine]
  by_cases hfits : line.fits = true
  · by_cases hempty : line.word = []
    · have hnot : ∀ i : Instruction, [] ≠ i.digits := fun i => (digits_ne_nil i).symm
      simp [hfits, hempty, hnot, eq_comm]
    · rw [if_pos hfits, if_neg (by simpa using hempty)]
      cases hword : disassemble line.word with
      | ok code =>
        obtain ⟨i, hi, rfl⟩ := disassemble_eq_ok.1 hword
        constructor
        · rintro ⟨⟩
          exact ⟨hfits, Or.inr ⟨i, hi, rfl⟩⟩
        · rintro ⟨-, hblank | ⟨j, hj, rfl⟩⟩
          · exact absurd hblank.1 hempty
          · rw [disassemble_eq_ok.2 ⟨j, hj, rfl⟩] at hword
            rw [Except.ok.inj hword]
      | error word =>
        constructor
        · rintro ⟨⟩
        · rintro ⟨-, hblank | ⟨j, hj, rfl⟩⟩
          · exact absurd hblank.1 hempty
          · rw [disassemble_eq_ok.2 ⟨j, hj, rfl⟩] at hword
            exact absurd hword (by simp)
  · rw [if_neg hfits]
    simp [hfits]

/-- The words of a file that starts with a line. -/
theorem filter_word_cons (line : BinaryLine) (ls : List BinaryLine) :
    ((line :: ls).map BinaryLine.word).filter (· ≠ [])
      = (if line.word = [] then [] else [line.word])
        ++ (ls.map BinaryLine.word).filter (· ≠ []) := by
  rw [List.map_cons, List.filter_cons]
  by_cases h : line.word = [] <;> simp [h]

theorem filterMapM_cons_eq_ok {α β ε : Type} {f : α → Except ε (Option β)} {x : α} {l : List α}
    {ys : List β} :
    (x :: l).filterMapM f = .ok ys ↔
      ∃ r zs, f x = .ok r ∧ l.filterMapM f = .ok zs ∧ ys = r.toList ++ zs := by
  rw [List.filterMapM_cons]
  cases f x with
  | error fault => simp [bind, Except.bind]
  | ok r =>
    cases r <;> cases l.filterMapM f <;> simp [bind, Except.bind, pure, Except.pure, eq_comm]

theorem filterMapM_disassembleLine {ls : List BinaryLine} {n : Nat} {codes : List Bytes} :
    (ls.zipIdx n).filterMapM (fun (line, number) => disassembleLine number line) = .ok codes ↔
      (∀ line ∈ ls, line.fits = true) ∧ ∃ is : List Instruction,
        (ls.map BinaryLine.word).filter (· ≠ []) = is.map Instruction.digits ∧
          codes = is.map Instruction.render := by
  induction ls generalizing n codes with
  | nil =>
    constructor
    · rintro ⟨⟩
      exact ⟨by simp, [], rfl, rfl⟩
    · rintro ⟨-, is, his, rfl⟩
      rw [List.map_eq_nil_iff.1 his.symm]
      rfl
  | cons line ls ih =>
    rw [List.zipIdx_cons, filterMapM_cons_eq_ok, filter_word_cons, List.forall_mem_cons]
    constructor
    · rintro ⟨result, later, hline, hlater, rfl⟩
      obtain ⟨hall, is, hwords, rfl⟩ := ih.1 hlater
      obtain ⟨hfits, ⟨hblank, rfl⟩ | ⟨i, hi, rfl⟩⟩ := disassembleLine_eq_ok.1 hline
      · exact ⟨⟨hfits, hall⟩, is, by rw [if_pos hblank, hwords]; rfl, rfl⟩
      · have hne : line.word ≠ [] := hi ▸ digits_ne_nil i
        exact ⟨⟨hfits, hall⟩, i :: is, by rw [if_neg hne, hwords, hi]; rfl, rfl⟩
    · rintro ⟨⟨hfits, hall⟩, is, hwords, rfl⟩
      by_cases hblank : line.word = []
      · rw [if_pos hblank, List.nil_append] at hwords
        exact ⟨none, is.map Instruction.render,
          disassembleLine_eq_ok.2 ⟨hfits, Or.inl ⟨hblank, rfl⟩⟩, ih.2 ⟨hall, is, hwords, rfl⟩, rfl⟩
      · rw [if_neg hblank, List.singleton_append] at hwords
        obtain ⟨i, is, rfl, hi, hlater⟩ := List.map_eq_cons_iff.1 hwords.symm
        exact ⟨some i.render, is.map Instruction.render,
          disassembleLine_eq_ok.2 ⟨hfits, Or.inr ⟨i, hi.symm, rfl⟩⟩,
          ih.2 ⟨hall, is, hlater.symm, rfl⟩, rfl⟩

/-- **When a file is disassembled.**  It must be readable to its end, each line must be short
enough, and its words must be those of some instructions.  The result is the canonical texts of
these. -/
theorem disassembleAll_eq_ok {source : Source} {codes : List Bytes} :
    disassembleAll source = .ok codes ↔ source.failure = none ∧
      (∀ line ∈ binaryLines source.bytes, line.fits = true) ∧ ∃ is : List Instruction,
        wordsIn source.bytes = is.map Instruction.digits ∧ codes = is.map Instruction.render := by
  rw [← filter_word_binaryLines, ← filterMapM_disassembleLine (n := 1), disassembleAll]
  cases ((binaryLines source.bytes).zipIdx 1).filterMapM
      (fun (line, number) => disassembleLine number line) with
  | error fault =>
    constructor
    · rintro ⟨⟩
    · rintro ⟨-, ⟨⟩⟩
  | ok texts =>
    cases source.failure with
    | none => exact (and_iff_right rfl).symm
    | some cause =>
      constructor
      · rintro ⟨⟩
      · rintro ⟨⟨⟩, -⟩

/-! ## The file of some instructions -/

theorem lineFeed_notMem_digits (is : List Instruction) :
    ∀ l ∈ is.map Instruction.digits, Byte.lineFeed ∉ l := by
  rw [List.forall_mem_map]
  intro i _ h
  exact absurd (Binary.isDigit_of_mem_render h) (by decide)

theorem binaryLines_unlines {ls : List Bytes} (h : ∀ l ∈ ls, Byte.lineFeed ∉ l) :
    binaryLines (unlines ls) = ls.map fun l => ⟨l, l.length + 1 ≤ longestLine⟩ := by
  rw [binaryLines, chunks_unlines h]
  simp

theorem wordsIn_unlines_digits (is : List Instruction) :
    wordsIn (unlines (is.map Instruction.digits)) = is.map Instruction.digits := by
  have hword : ∀ i : Instruction, trimmed (withoutReturn i.digits) = i.digits := by
    intro i
    rw [trimmed_withoutReturn]
    exact trimmed_of_isDigit fun _ => Binary.isDigit_of_mem_render
  rw [← filter_word_binaryLines, binaryLines_unlines (lineFeed_notMem_digits is), List.map_map,
    List.map_map]
  have hsame : is.map ((BinaryLine.word ∘ fun l => ⟨l, l.length + 1 ≤ longestLine⟩)
      ∘ Instruction.digits) = is.map Instruction.digits :=
    List.map_congr_left fun i _ => hword i
  rw [hsame, List.filter_eq_self]
  exact List.forall_mem_map.2 fun i _ => by simpa using digits_ne_nil i

/-- **The words of any instructions** can be disassembled, to their canonical texts. -/
theorem disassembleAll_unlines_digits (is : List Instruction) :
    disassembleAll { bytes := unlines (is.map Instruction.digits), failure := none }
      = .ok (is.map Instruction.render) := by
  refine disassembleAll_eq_ok.2 ⟨rfl, ?_, is, wordsIn_unlines_digits is, rfl⟩
  rw [binaryLines_unlines (lineFeed_notMem_digits is), List.forall_mem_map, List.forall_mem_map]
  intro i _
  rw [length_digits]
  exact decide_eq_true (by decide : 16 + 1 ≤ longestLine)

end HackAssembly
