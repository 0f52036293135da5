import HackAssembly.Proofs.ComputationWord
import HackAssembly.Proofs.Soundness
import HackAssembly.Proofs.WordFile

/-!
# What decides the outcome of disassembling

Reading a binary file ends at the first line that is too long or holds something else than the word
of an instruction, and which of the two it is decides the outcome.  When there is no such line, it
is decided by the end of the file: there are codes if the file can be read to its end, and otherwise
the cause of the failure is the outcome (`earliest_offence_decides`).

The lines of a file are said here without chunks: they are the pieces between line feeds, but for an
empty piece behind the last one (`fileLines`).  A line is too long at 65536 bytes, whether a line
feed ends it or not, since the line feed counts towards the length of a line that has one
(`binaryLines_eq`).  Blank lines are lines, so they count in the number of a malformed one.

What a line must hold is said on its digits (`IsInstructionWord`).  These are exactly the words of
instructions (`isInstructionWord_iff`): behind `111` and a code from the table of computations any
six digits are the codes of a destination and a jump.
-/

namespace HackAssembly

open Program (render_encode_address)

/-! ## Words of instructions -/

/-- Sixteen binary digits that start with `0`, or with `111` and the code of a computation. -/
def IsInstructionWord (text : Bytes) : Prop :=
  IsWord text ∧
    (ascii "111" <+: text → (text.drop 3).take 7 ∈ Comp.canonicalCodes.map Prod.snd)

theorem exists_render {n : Nat} {s : Bytes} (hlength : s.length = n)
    (h : ∀ b ∈ s, b = 0x30 ∨ b = 0x31) : ∃ bits : BitVec n, s = Binary.render bits := by
  have hdigits : s.all Binary.isDigit = true := by
    rw [List.all_eq_true]
    intro b hb
    simpa [Binary.isDigit] using h b hb
  exact ⟨Binary.value n s, (Binary.render_value hlength hdigits).symm⟩

theorem isInstructionWord_digits (i : Instruction) : IsInstructionWord i.digits := by
  refine ⟨isWord_encode i, ?_⟩
  intro hstart
  cases i with
  | address value =>
    rw [Instruction.digits, render_encode_address, ascii] at hstart
    simp at hstart
  | compute comp dest jump =>
    rw [Instruction.digits, Instruction.encode, Word.render_ofFields, List.append_assoc,
      List.append_assoc, Comp.canonicalCodes_eq, List.map_map]
    have hdrop : (ascii "111" ++ (Binary.render comp.bits
        ++ (Binary.render dest.bits ++ Binary.render jump.bits))).drop 3
          = Binary.render comp.bits ++ (Binary.render dest.bits ++ Binary.render jump.bits) := rfl
    rw [hdrop, List.take_left' (Binary.length_render comp.bits)]
    have hall : comp ∈ Comp.all := by cases comp <;> decide
    exact List.mem_map.2 ⟨comp, hall, rfl⟩

theorem exists_digits_of_zero {rest : Bytes} (hlength : rest.length = 15)
    (h : ∀ b ∈ rest, b = 0x30 ∨ b = 0x31) :
    ∃ i : Instruction, ascii "0" ++ rest = i.digits := by
  obtain ⟨value, rfl⟩ := exists_render hlength h
  exact ⟨.address value, (render_encode_address value).symm⟩

theorem exists_digits_of_ones {rest : Bytes} (hlength : rest.length = 13)
    (h : ∀ b ∈ rest, b = 0x30 ∨ b = 0x31)
    (hcomp : rest.take 7 ∈ Comp.canonicalCodes.map Prod.snd) :
    ∃ i : Instruction, ascii "111" ++ rest = i.digits := by
  rw [Comp.canonicalCodes_eq, List.map_map, List.mem_map] at hcomp
  obtain ⟨comp, -, hcode⟩ := hcomp
  -- the six digits behind the code are three and three
  obtain ⟨dest, hdest⟩ : ∃ bits : BitVec 3, (rest.drop 7).take 3 = Binary.render bits := by
    refine exists_render (by simp [hlength]) ?_
    intro b hb
    exact h b (List.mem_of_mem_drop (List.mem_of_mem_take hb))
  obtain ⟨jump, hjump⟩ : ∃ bits : BitVec 3, (rest.drop 7).drop 3 = Binary.render bits := by
    refine exists_render (by simp [hlength]) ?_
    intro b hb
    exact h b (List.mem_of_mem_drop (List.mem_of_mem_drop hb))
  refine ⟨.compute comp (.ofBits dest) (.ofBits jump), ?_⟩
  calc ascii "111" ++ rest
      = ascii "111" ++ (rest.take 7 ++ ((rest.drop 7).take 3 ++ (rest.drop 7).drop 3)) := by
        rw [List.take_append_drop, List.take_append_drop]
    _ = ascii "111" ++ (Binary.render comp.bits ++ (Binary.render dest ++ Binary.render jump)) := by
        rw [hdest, hjump, ← hcode]
        rfl
    _ = _ := by
        rw [Instruction.digits, Instruction.encode, Word.render_ofFields, Dest.bits_ofBits,
          Jump.bits_ofBits, List.append_assoc, List.append_assoc]

/-- **The words of instructions** by their digits. -/
theorem isInstructionWord_iff {text : Bytes} :
    IsInstructionWord text ↔ ∃ i : Instruction, text = i.digits := by
  constructor
  · intro ⟨⟨hlength, hdigits, hstart⟩, hcomp⟩
    rcases hstart with ⟨rest, rfl⟩ | ⟨rest, rfl⟩
    · have hrest : rest.length = 15 := by
        rw [List.length_append] at hlength
        exact Nat.add_left_cancel hlength
      exact exists_digits_of_zero hrest fun b hb => hdigits b (List.mem_append_right _ hb)
    · have hrest : rest.length = 13 := by
        rw [List.length_append] at hlength
        exact Nat.add_left_cancel hlength
      exact exists_digits_of_ones hrest (fun b hb => hdigits b (List.mem_append_right _ hb))
        (hcomp (List.prefix_append _ _))
  · rintro ⟨i, rfl⟩
    exact isInstructionWord_digits i

/-! ## Lines -/

/-- The lines of a file: the pieces between its line feeds, but for an empty last one. -/
def fileLines (bytes : Bytes) : List Bytes :=
  let pieces := bytes.splitOn Byte.lineFeed
  if pieces.getLast? = some [] then pieces.dropLast else pieces

def TooLong (line : Bytes) : Prop := 65536 ≤ line.length

/-- A line that is neither blank nor holds the word of an instruction. -/
def Malformed (line : Bytes) : Prop := trimmed line ≠ [] ∧ ¬ IsInstructionWord (trimmed line)

def Harmless (line : Bytes) : Prop := ¬ TooLong line ∧ ¬ Malformed line

theorem fileLines_of_notMem {s : Bytes} (h : Byte.lineFeed ∉ s) :
    fileLines s = if s = [] then [] else [s] := by
  rw [fileLines, List.splitOn_eq_singleton h]
  by_cases hs : s = [] <;> simp [hs]

theorem fileLines_append_lineFeed {s : Bytes} (h : Byte.lineFeed ∉ s) (t : Bytes) :
    fileLines (s ++ Byte.lineFeed :: t) = s :: fileLines t := by
  rw [fileLines, List.splitOn_append_cons_self_of_not_mem h, fileLines]
  obtain ⟨piece, pieces, hpieces⟩ :=
    List.exists_cons_of_ne_nil (List.splitOn_ne_nil Byte.lineFeed t)
  rw [hpieces, List.getLast?_cons_cons, List.dropLast_cons_cons]
  split
  · rfl
  · rfl

theorem fileLines_lineFeed_cons (t : Bytes) : fileLines (Byte.lineFeed :: t) = [] :: fileLines t :=
  fileLines_append_lineFeed List.not_mem_nil t

/-- **The lines are those between the line feeds**, and the limit is the same for all of them. -/
theorem binaryLines_eq (bytes : Bytes) :
    binaryLines bytes = (fileLines bytes).map fun l => ⟨l, l.length < longestLine⟩ := by
  induction bytes using lineFeedInduction with
  | rest s h =>
    rw [binaryLines_of_notMem h, fileLines_of_notMem h]
    by_cases hs : s = [] <;> simp [hs]
  | chunk s t h ih =>
    rw [binaryLines_append_lineFeed h, fileLines_append_lineFeed h, ih, List.map_cons]
    rfl

def BinaryLine.ofBytes (line : Bytes) : BinaryLine := ⟨line, line.length < longestLine⟩

theorem BinaryLine.word_ofBytes (line : Bytes) : (ofBytes line).word = trimmed line :=
  trimmed_withoutReturn line

theorem BinaryLine.fits_ofBytes {line : Bytes} : (ofBytes line).fits = true ↔ ¬ TooLong line := by
  rw [ofBytes, decide_eq_true_eq, TooLong, longestLine]
  omega

theorem disassemble_isOk {text : Bytes} :
    (∃ code, disassemble text = .ok code) ↔ IsInstructionWord text := by
  rw [isInstructionWord_iff]
  constructor
  · intro ⟨code, hcode⟩
    obtain ⟨i, hi, -⟩ := disassemble_eq_ok.1 hcode
    exact ⟨i, hi⟩
  · intro ⟨i, hi⟩
    exact ⟨i.render, disassemble_eq_ok.2 ⟨i, hi, rfl⟩⟩

theorem disassemble_of_length_ne {text : Bytes} (h : text.length ≠ 16) :
    disassemble text = .error ⟨text, .length text.length⟩ := by
  rw [disassemble, Instruction.ofDigits, Word.read, if_neg h]
  rfl

theorem malformed_of_error {line : Bytes} {word : MalformedWord} (hne : trimmed line ≠ [])
    (h : disassemble (trimmed line) = .error word) : Malformed line := by
  refine ⟨hne, ?_⟩
  intro hinstruction
  obtain ⟨code, hcode⟩ := disassemble_isOk.2 hinstruction
  rw [h] at hcode
  cases hcode

theorem not_malformed_iff {line : Bytes} :
    ¬ Malformed line ↔ trimmed line = [] ∨ IsInstructionWord (trimmed line) := by
  rw [Malformed]
  tauto

/-- **A harmless line** gives the code of its word, unless it is blank. -/
theorem disassembleLine_of_harmless {line : Bytes} (h : Harmless line) (number : Nat) :
    ∃ result, disassembleLine number (.ofBytes line) = .ok result ∧
      ([trimmed line].filter (· ≠ [])).map disassemble = result.toList.map .ok := by
  have hfits := BinaryLine.fits_ofBytes.2 h.1
  rw [disassembleLine, if_pos hfits, BinaryLine.word_ofBytes]
  by_cases hblank : trimmed line = []
  · refine ⟨none, ?_, ?_⟩
    · rw [if_pos (by simp [hblank])]
    · simp [hblank]
  · have hword := (not_malformed_iff.1 h.2).resolve_left hblank
    obtain ⟨code, hcode⟩ := disassemble_isOk.2 hword
    refine ⟨some code, ?_, ?_⟩
    · rw [if_neg (by simpa using hblank), hcode]
    · simp [hblank, hcode]

theorem disassembleLine_of_tooLong {line : Bytes} (h : TooLong line) (number : Nat) :
    disassembleLine number (.ofBytes line) = .error .lineTooLong := by
  rw [disassembleLine, if_neg (mt BinaryLine.fits_ofBytes.1 (not_not.2 h))]

theorem disassembleLine_of_malformed {line : Bytes} (hfits : ¬ TooLong line)
    (hmalformed : Malformed line) {word : MalformedWord}
    (hword : disassemble (trimmed line) = .error word) (number : Nat) :
    disassembleLine number (.ofBytes line) = .error (.malformed number word) := by
  rw [disassembleLine, if_pos (BinaryLine.fits_ofBytes.2 hfits), BinaryLine.word_ofBytes,
    if_neg (by simpa using hmalformed.1), hword]

/-! ## Files -/

/-- What decides the outcome of disassembling a file. -/
inductive Verdict (source : Source) : Except DisassemblyFault (List Bytes) → Prop
  | codes {codes : List Bytes} (hlines : ∀ line ∈ fileLines source.bytes, Harmless line)
    (hend : source.failure = none)
    (hcodes : (((fileLines source.bytes).map trimmed).filter (· ≠ [])).map disassemble
      = codes.map .ok) : Verdict source (.ok codes)
  /-- The first line that is not harmless is malformed.  Its number is one more than that of the
  lines before it. -/
  | malformed {before after : List Bytes} {line : Bytes} {word : MalformedWord}
    (hsplit : fileLines source.bytes = before ++ line :: after)
    (hbefore : ∀ earlier ∈ before, Harmless earlier) (hfits : ¬ TooLong line)
    (hmalformed : Malformed line) (hword : disassemble (trimmed line) = .error word) :
    Verdict source (.error (.malformed (before.length + 1) word))
  | tooLong {before after : List Bytes} {line : Bytes}
    (hsplit : fileLines source.bytes = before ++ line :: after)
    (hbefore : ∀ earlier ∈ before, Harmless earlier) (hlong : TooLong line) :
    Verdict source (.error .lineTooLong)
  | unreadable {cause : Bytes} (hlines : ∀ line ∈ fileLines source.bytes, Harmless line)
    (hend : source.failure = some cause) : Verdict source (.error (.unreadable cause))

/-- Reads lines that are numbered from `n`. -/
def disassembleLines (n : Nat) (ls : List Bytes) : Except DisassemblyFault (List Bytes) :=
  ((ls.map BinaryLine.ofBytes).zipIdx n).filterMapM fun (line, number) =>
    disassembleLine number line

theorem disassembleAll_eq (source : Source) :
    disassembleAll source = (do
      let texts ← disassembleLines 1 (fileLines source.bytes)
      match source.failure with
      | none => .ok texts
      | some cause => .error (.unreadable cause)) := by
  rw [disassembleAll, binaryLines_eq]
  rfl

/-- **Lines are read one by one**, up to the first fault. -/
theorem disassembleLines_cons (n : Nat) (line : Bytes) (ls : List Bytes) :
    disassembleLines n (line :: ls) = (do
      let result ← disassembleLine n (.ofBytes line)
      let texts ← disassembleLines (n + 1) ls
      .ok (result.toList ++ texts)) := by
  rw [disassembleLines, List.map_cons, List.zipIdx_cons, List.filterMapM_cons]
  dsimp only
  rw [← disassembleLines]
  cases disassembleLine n (.ofBytes line) with
  | error fault => rfl
  | ok result => cases result <;> cases disassembleLines (n + 1) ls <;> rfl

/-- **Harmless lines** give the codes of the words on them. -/
theorem disassembleLines_of_harmless {ls : List Bytes} (h : ∀ line ∈ ls, Harmless line) (n : Nat) :
    ∃ texts, disassembleLines n ls = .ok texts ∧
      ((ls.map trimmed).filter (· ≠ [])).map disassemble = texts.map .ok := by
  induction ls generalizing n with
  | nil => exact ⟨[], rfl, rfl⟩
  | cons line ls ih =>
    obtain ⟨hline, hrest⟩ := List.forall_mem_cons.1 h
    obtain ⟨result, hresult, hcode⟩ := disassembleLine_of_harmless hline n
    obtain ⟨texts, htexts, hcodes⟩ := ih hrest (n + 1)
    refine ⟨result.toList ++ texts, ?_, ?_⟩
    · rw [disassembleLines_cons, hresult, htexts]
      rfl
    · rw [List.map_cons, ← List.singleton_append, List.filter_append, List.map_append, hcode,
        hcodes, List.map_append]

/-- **The first line with a fault** decides, whatever comes behind it. -/
theorem disassembleLines_append {before : List Bytes} (h : ∀ line ∈ before, Harmless line)
    {n : Nat} {line : Bytes} {fault : DisassemblyFault}
    (hline : disassembleLine (n + before.length) (.ofBytes line) = .error fault)
    (after : List Bytes) : disassembleLines n (before ++ line :: after) = .error fault := by
  induction before generalizing n with
  | nil =>
    have hfirst : disassembleLine n (.ofBytes line) = .error fault := hline
    rw [List.nil_append, disassembleLines_cons, hfirst]
    rfl
  | cons first before ih =>
    obtain ⟨hfirst, hrest⟩ := List.forall_mem_cons.1 h
    obtain ⟨result, hresult, -⟩ := disassembleLine_of_harmless hfirst n
    have hnext : n + (first :: before).length = n + 1 + before.length := by
      rw [List.length_cons]
      omega
    rw [hnext] at hline
    rw [List.cons_append, disassembleLines_cons, hresult, ih hrest hline]
    rfl

/-- A verdict is what comes out. -/
theorem Verdict.disassembleAll_eq {source : Source}
    {result : Except DisassemblyFault (List Bytes)} (h : Verdict source result) :
    disassembleAll source = result := by
  rw [HackAssembly.disassembleAll_eq]
  cases h with
  | @codes codes hlines hend hcodes =>
    obtain ⟨texts, htexts, hwords⟩ := disassembleLines_of_harmless hlines 1
    have hsame : texts = codes := by
      rw [hwords] at hcodes
      exact List.map_injective_iff.2 (fun _ _ => Except.ok.inj) hcodes
    rw [htexts, hend, hsame]
    rfl
  | @malformed before after line word hsplit hbefore hfits hmalformed hword =>
    have hline := disassembleLine_of_malformed hfits hmalformed hword (1 + before.length)
    rw [hsplit, disassembleLines_append hbefore hline, Nat.add_comm]
    rfl
  | @tooLong before after line hsplit hbefore hlong =>
    have hline := disassembleLine_of_tooLong hlong (1 + before.length)
    rw [hsplit, disassembleLines_append hbefore hline]
    rfl
  | unreadable hlines hend =>
    obtain ⟨texts, htexts, -⟩ := disassembleLines_of_harmless hlines 1
    rw [htexts, hend]
    rfl

theorem exists_first_offence {ls : List Bytes} (h : ¬ ∀ line ∈ ls, Harmless line) :
    ∃ before line after, ls = before ++ line :: after ∧ (∀ earlier ∈ before, Harmless earlier) ∧
      ¬ Harmless line := by
  classical
  have hsome : (ls.find? fun line => ¬ Harmless line).isSome = true := by
    rw [List.find?_isSome]
    simpa using h
  obtain ⟨line, hline⟩ := Option.isSome_iff_exists.1 hsome
  obtain ⟨hoffence, before, after, hsplit, hbefore⟩ := List.find?_eq_some_iff_append.1 hline
  exact ⟨before, line, after, hsplit, by simpa using hbefore, by simpa using hoffence⟩

/-- There is a verdict on every file. -/
theorem exists_verdict (source : Source) : ∃ result, Verdict source result := by
  by_cases hlines : ∀ line ∈ fileLines source.bytes, Harmless line
  · cases hend : source.failure with
    | none =>
      obtain ⟨texts, -, hcodes⟩ := disassembleLines_of_harmless hlines 1
      exact ⟨_, .codes hlines hend hcodes⟩
    | some cause => exact ⟨_, .unreadable hlines hend⟩
  · obtain ⟨before, line, after, hsplit, hbefore, hoffence⟩ := exists_first_offence hlines
    by_cases hlong : TooLong line
    · exact ⟨_, .tooLong hsplit hbefore hlong⟩
    · have hmalformed : Malformed line := by
        by_contra hnot
        exact hoffence ⟨hlong, hnot⟩
      cases hword : disassemble (trimmed line) with
      | ok code => exact absurd (disassemble_isOk.1 ⟨code, hword⟩) hmalformed.2
      | error word => exact ⟨_, .malformed hsplit hbefore hlong hmalformed hword⟩

/-- **The earliest offence decides.**  A file gives codes exactly when no line is too long, it can
be read to its end, and every line is blank or holds the word of an instruction.  What comes out in
any case is the verdict of the first line that is too long or malformed, or of the end of the
file. -/
theorem earliest_offence_decides (source : Source) :
    ((∃ codes, disassembleAll source = .ok codes) ↔
      (∀ line ∈ fileLines source.bytes, ¬ TooLong line) ∧ source.failure = none ∧
        ∀ line ∈ fileLines source.bytes, trimmed line = [] ∨ IsInstructionWord (trimmed line)) ∧
    ∀ result, disassembleAll source = result ↔ Verdict source result := by
  have hverdict : ∀ result, disassembleAll source = result ↔ Verdict source result := by
    intro result
    constructor
    · intro hresult
      obtain ⟨other, hother⟩ := exists_verdict source
      rw [← hresult, hother.disassembleAll_eq]
      exact hother
    · intro h
      exact h.disassembleAll_eq
  refine ⟨?_, hverdict⟩
  constructor
  · intro ⟨codes, hcodes⟩
    cases (hverdict _).1 hcodes with
    | codes hlines hend _ =>
      exact ⟨fun line hline => (hlines line hline).1, hend,
        fun line hline => not_malformed_iff.1 (hlines line hline).2⟩
  · intro ⟨hfits, hend, hwords⟩
    have hlines : ∀ line ∈ fileLines source.bytes, Harmless line :=
      fun line hline => ⟨hfits line hline, not_malformed_iff.2 (hwords line hline)⟩
    obtain ⟨texts, -, hcodes⟩ := disassembleLines_of_harmless hlines 1
    exact ⟨texts, (hverdict _).2 (.codes hlines hend hcodes)⟩

/-- Behind a blank line a line of 65535 digits is malformed and one of 65536 digits is too long, and
both come before the failure to read on. -/
theorem earliest_offence_decides_limit :
    disassembleAll ⟨Byte.lineFeed :: List.replicate 65535 0x30, some (ascii "gone")⟩
        = .error (.malformed 2 ⟨List.replicate 65535 0x30, .length 65535⟩) ∧
      disassembleAll ⟨Byte.lineFeed :: List.replicate 65536 0x30, some (ascii "gone")⟩
        = .error .lineTooLong := by
  -- the length stays a variable, so that no list of that length is ever written out
  have hlines : ∀ n, n ≠ 0 → fileLines (Byte.lineFeed :: List.replicate n 0x30)
      = [[]] ++ List.replicate n 0x30 :: [] := by
    intro n hn
    have hdigits : Byte.lineFeed ∉ List.replicate n (0x30 : UInt8) := by
      rw [List.mem_replicate]
      intro h
      exact absurd h.2 (by decide)
    rw [fileLines_lineFeed_cons, fileLines_of_notMem hdigits, if_neg (by simpa using hn)]
    rfl
  have hblank : ∀ earlier ∈ [([] : Bytes)], Harmless earlier := by
    intro earlier hearlier
    rw [List.mem_singleton.1 hearlier]
    exact ⟨by rw [TooLong]; decide, fun h => h.1 (by decide)⟩
  have hmalformed : ∀ n, n ≠ 0 → n ≠ 16 → n < 65536 →
      disassembleAll ⟨Byte.lineFeed :: List.replicate n 0x30, some (ascii "gone")⟩
        = .error (.malformed 2 ⟨List.replicate n 0x30, .length n⟩) := by
    intro n hzero hn hshort
    have hlength : (List.replicate n (0x30 : UInt8)).length = n := List.length_replicate
    have htrimmed : trimmed (List.replicate n 0x30) = List.replicate n 0x30 := by
      refine trimmed_of_isDigit fun b hb => ?_
      rw [(List.mem_replicate.1 hb).2]
      decide
    have hword : disassemble (trimmed (List.replicate n 0x30))
        = .error ⟨List.replicate n 0x30, .length n⟩ := by
      rw [htrimmed, disassemble_of_length_ne (by rwa [hlength]), hlength]
    have hoffence := malformed_of_error (by simpa [htrimmed] using hzero) hword
    have hfits : ¬ TooLong (List.replicate n 0x30) := by
      rw [TooLong, hlength]
      omega
    exact ((earliest_offence_decides _).2 _).2
      (.malformed (hlines n hzero) hblank hfits hoffence hword)
  have hlong : ∀ n, 65536 ≤ n →
      disassembleAll ⟨Byte.lineFeed :: List.replicate n 0x30, some (ascii "gone")⟩
        = .error .lineTooLong := by
    intro n hn
    refine ((earliest_offence_decides _).2 _).2 (.tooLong (hlines n (by omega)) hblank ?_)
    rw [TooLong, List.length_replicate]
    exact hn
  exact ⟨hmalformed 65535 (by decide) (by decide) (by decide), hlong 65536 (Nat.le_refl _)⟩

end HackAssembly
