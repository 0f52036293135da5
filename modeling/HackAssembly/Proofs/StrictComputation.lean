import HackAssembly.Proofs.LineForm
import HackAssembly.Proofs.Run
import HackAssembly.Proofs.WordFile

/-!
# What strict mode reads of a computation

The fields of a computation are cut out by three rules that do not know of each other.  The
computation ends at the first `;`, the jump is the last three bytes, and in strict mode each of the
fields has to be understood.  So a line that strict mode takes is made up of four parts
(`Computation.Parts`): a destination with its `=`, a computation, some text, and a `;` with its
jump.  The text in the third place goes from the first `;` up to the last one and is not looked at;
it is empty when the line has no second `;`.

Reading the parts gives the instruction (`Parts.instruction_eq`), and the canonical text of that
consists of the same destination, the canonical spelling of the same computation and the same jump.
Hence the word of the line decodes to the line itself, with its computation in canonical spelling
and without the text between the first and the last `;` (`strict_computation_is_decoded`).  That
this text can be there is shown by a line with two `;` (`text_between_semicolons_is_skipped`).
-/

namespace HackAssembly

open Assembly

theorem Jump.isField_mnemonics : ∀ s ∈ mnemonics, ∀ b ∈ s, Byte.isField b = true := by
  decide +kernel

/-! ## The parts of a line -/

namespace Computation

/-- How a line that strict mode takes is made up. -/
structure Parts (line dest comp skipped jump : Bytes) : Prop where
  line_eq : line = dest ++ comp ++ skipped ++ jump
  dest_eq : dest = [] ∨ ∃ mnemonic ∈ Dest.mnemonics, dest = mnemonic ++ [Byte.equalsSign]
  comp_mem : comp ∈ Comp.spellings
  jump_eq : jump = [] ∨ ∃ mnemonic ∈ Jump.mnemonics, jump = Byte.semicolon :: mnemonic
  /-- Text is skipped from a `;` on, and only in front of a jump. -/
  skipped_eq : skipped = [] ∨ skipped.head? = some Byte.semicolon ∧ jump ≠ []
  /-- Without a destination the skipped text has no `=` either. -/
  equals : dest = [] → Byte.equalsSign ∉ skipped

namespace Parts

variable {line dest comp skipped jump : Bytes}

theorem notMem_comp (h : Parts line dest comp skipped jump) {mark : UInt8}
    (hmark : Byte.isField mark = false) : mark ∉ comp :=
  notMem_of_isField (Comp.isField_spellings comp h.comp_mem).2 hmark

/-- What follows the computation is nothing, or starts with a `;`. -/
theorem rest_eq (h : Parts line dest comp skipped jump) :
    skipped ++ jump = [] ∨ ∃ rest, skipped ++ jump = Byte.semicolon :: rest := by
  rcases h.skipped_eq with rfl | ⟨hhead, -⟩
  · rcases h.jump_eq with rfl | ⟨mnemonic, -, rfl⟩
    · exact Or.inl rfl
    · exact Or.inr ⟨mnemonic, rfl⟩
  · obtain ⟨rest, rfl⟩ := List.head?_eq_some_iff.1 hhead
    exact Or.inr ⟨rest ++ jump, rfl⟩

theorem takeWhile_comp (h : Parts line dest comp skipped jump) :
    (comp ++ (skipped ++ jump)).takeWhile (· != Byte.semicolon) = comp := by
  have hcomp : Byte.semicolon ∉ comp := h.notMem_comp (by decide)
  rcases h.rest_eq with hnil | ⟨rest, hrest⟩
  · rw [hnil, List.append_nil, takeWhile_ne_of_notMem hcomp]
  · rw [hrest, takeWhile_ne_append_cons hcomp]

theorem equalsSign_notMem (h : Parts line dest comp skipped jump) (hdest : dest = []) :
    Byte.equalsSign ∉ line := by
  have hcomp : Byte.equalsSign ∉ comp := h.notMem_comp (by decide)
  have hjump : Byte.equalsSign ∉ jump := by
    rcases h.jump_eq with rfl | ⟨mnemonic, hmem, rfl⟩
    · exact List.not_mem_nil
    · rw [List.mem_cons, not_or]
      exact ⟨by decide, notMem_of_isField (Jump.isField_mnemonics mnemonic hmem) (by decide)⟩
  rw [h.line_eq, hdest]
  simp [hcomp, h.equals hdest, hjump]

/-- The first `=` stands behind the destination. -/
theorem cutAt {mnemonic : Bytes} (h : Parts line (mnemonic ++ [Byte.equalsSign]) comp skipped jump)
    (hmem : mnemonic ∈ Dest.mnemonics) :
    CutAt Byte.equalsSign line mnemonic (comp ++ (skipped ++ jump)) := by
  refine ⟨notMem_of_isField (Dest.isField_mnemonics mnemonic hmem).2 (by decide), ?_⟩
  rw [h.line_eq]
  simp

/-! ### Reading the parts -/

theorem dest?_eq (h : Parts line dest comp skipped jump) :
    ∃ d : Dest, dest? line = some d ∧
      dest = if d = .nowhere then [] else d.spelling ++ [Byte.equalsSign] := by
  rcases h.dest_eq with hnil | ⟨mnemonic, hmem, rfl⟩
  · refine ⟨.nowhere, ?_, by rw [if_pos rfl, hnil]⟩
    exact dest?_of_notMem (h.equalsSign_notMem hnil)
  · obtain ⟨d, hd, rfl⟩ := Dest.exists_spelling_of_mem hmem
    have hfield : comp ++ (skipped ++ jump) ≠ [] := by
      simp [(Comp.isField_spellings comp h.comp_mem).1]
    refine ⟨d, ?_, by rw [if_neg hd]⟩
    rw [dest?_of_cutAt (h.cutAt hmem), if_neg hfield, Dest.read?_spelling hd]

theorem compField_eq (h : Parts line dest comp skipped jump) : compField line = comp := by
  rcases h.dest_eq with hnil | ⟨mnemonic, hmem, rfl⟩
  · have hline : line = comp ++ (skipped ++ jump) := by
      rw [h.line_eq, hnil]
      simp
    rw [compField_of_notMem (h.equalsSign_notMem hnil), hline, h.takeWhile_comp]
  · have hmark : Byte.semicolon ∉ mnemonic :=
      notMem_of_isField (Dest.isField_mnemonics mnemonic hmem).2 (by decide)
    rw [compField_of_cutAt (h.cutAt hmem), if_neg hmark, h.takeWhile_comp]

theorem comp?_eq (h : Parts line dest comp skipped jump) :
    ∃ c : Comp, comp? line = some c ∧ Comp.canonical comp = c.spelling := by
  have hread : Comp.read? comp ≠ none := fun hnone => Comp.read?_eq_none.1 hnone h.comp_mem
  obtain ⟨c, hc⟩ := Option.ne_none_iff_exists'.1 hread
  refine ⟨c, ?_, Comp.canonical_of_read? hc⟩
  rw [comp?, compText_eq, h.compField_eq, hc]

theorem jump?_eq (h : Parts line dest comp skipped jump) :
    ∃ j : Jump, jump? line = some j ∧
      jump = if j = .never then [] else Byte.semicolon :: j.spelling := by
  rcases h.jump_eq with hnil | ⟨mnemonic, hmem, rfl⟩
  · -- without a jump nothing is skipped, and there is no `;` at all
    have hskipped : skipped = [] := h.skipped_eq.resolve_right fun hs => hs.2 hnil
    have hsemicolon : Byte.semicolon ∉ line := by
      have hcomp : Byte.semicolon ∉ comp := h.notMem_comp (by decide)
      rcases h.dest_eq with hdest | ⟨mnemonic, hmem, hdest⟩
      · simp [h.line_eq, hdest, hskipped, hnil, hcomp]
      · have hmark : Byte.semicolon ∉ mnemonic :=
          notMem_of_isField (Dest.isField_mnemonics mnemonic hmem).2 (by decide)
        have hne : Byte.semicolon ≠ Byte.equalsSign := by decide
        simp [h.line_eq, hdest, hskipped, hnil, hcomp, hmark, hne]
    refine ⟨.never, ?_, by rw [if_pos rfl, hnil]⟩
    exact jump?_of_notMem hsemicolon
  · obtain ⟨j, hj, rfl⟩ := Jump.exists_spelling_of_mem hmem
    have hbefore : dest ++ comp ++ skipped ≠ [] := by
      simp [(Comp.isField_spellings comp h.comp_mem).1]
    refine ⟨j, ?_, by rw [if_neg hj]⟩
    rw [h.line_eq, jump?_append hbefore hj]

/-- **The parts say what the instruction is**, but for the skipped text. -/
theorem instruction_eq (h : Parts line dest comp skipped jump) :
    ∃ (c : Comp) (d : Dest) (j : Jump), instruction line = .compute c d j ∧
      dest = (if d = .nowhere then [] else d.spelling ++ [Byte.equalsSign]) ∧
      Comp.canonical comp = c.spelling ∧
      jump = if j = .never then [] else Byte.semicolon :: j.spelling := by
  obtain ⟨d, hd, hdest⟩ := h.dest?_eq
  obtain ⟨c, hc, hcomp⟩ := h.comp?_eq
  obtain ⟨j, hj, hjump⟩ := h.jump?_eq
  refine ⟨c, d, j, ?_, hdest, hcomp, hjump⟩
  rw [instruction, hd, hc, hj]
  rfl

theorem render_instruction (h : Parts line dest comp skipped jump) :
    (instruction line).render = dest ++ Comp.canonical comp ++ jump := by
  obtain ⟨c, d, j, hi, hdest, hcomp, hjump⟩ := h.instruction_eq
  rw [hi, hdest, hcomp, hjump]
  rfl

/-- Only behind a second `;` text is skipped. -/
theorem skipped_eq_nil (h : Parts line dest comp skipped jump)
    (hcount : line.count Byte.semicolon ≤ 1) : skipped = [] := by
  rcases h.skipped_eq with hnil | ⟨hhead, hjump⟩
  · exact hnil
  · obtain ⟨rest, rfl⟩ := List.head?_eq_some_iff.1 hhead
    obtain ⟨mnemonic, -, rfl⟩ := h.jump_eq.resolve_left hjump
    rw [h.line_eq] at hcount
    simp only [List.count_append, List.count_cons_self] at hcount
    omega

end Parts

/-! ### Taking a line apart -/

/-- From its first `;` on, a line that ends in a jump is skipped up to that jump. -/
theorem exists_skipped {before rest start mnemonic : Bytes} (hmem : mnemonic ∈ Jump.mnemonics)
    (h : before ++ Byte.semicolon :: rest = start ++ Byte.semicolon :: mnemonic) :
    ∃ skipped, Byte.semicolon :: rest = skipped ++ Byte.semicolon :: mnemonic ∧
      (skipped = [] ∨ skipped.head? = some Byte.semicolon) := by
  have hmark : Byte.semicolon ∉ mnemonic :=
    notMem_of_isField (Jump.isField_mnemonics mnemonic hmem) (by decide)
  rcases List.append_eq_append_iff.1 h with ⟨skipped, -, hrest⟩ | ⟨more, -, hmnemonic⟩
  · refine ⟨skipped, hrest, ?_⟩
    cases skipped with
    | nil => exact Or.inl rfl
    | cons b skipped =>
      obtain ⟨rfl, -⟩ := List.cons.inj hrest
      exact Or.inr rfl
  · -- the last `;` does not come before the first one
    cases more with
    | nil => exact ⟨[], hmnemonic.symm, Or.inl rfl⟩
    | cons b more =>
      obtain ⟨-, hinside⟩ := List.cons.inj hmnemonic
      exact absurd (by rw [hinside]; simp) hmark

/-- What follows the first `;` of a well-formed line ends in its jump. -/
theorem exists_jump {line before : Bytes} (h : WellFormedComputation line) {field : Bytes}
    (hline : line = before ++ field) :
    ∃ skipped jump, field.dropWhile (· != Byte.semicolon) = skipped ++ jump ∧
      (jump = [] ∨ ∃ mnemonic ∈ Jump.mnemonics, jump = Byte.semicolon :: mnemonic) ∧
      (skipped = [] ∨ skipped.head? = some Byte.semicolon ∧ jump ≠ []) := by
  by_cases hmem : Byte.semicolon ∈ field
  · obtain ⟨comp, rest, hcomp, hfield⟩ := exists_cutAt hmem
    obtain ⟨start, mnemonic, hmnemonic, hend⟩ := h.jump (by rw [hline]; simp [hmem])
    have hboth : (before ++ comp) ++ Byte.semicolon :: rest
        = start ++ Byte.semicolon :: mnemonic := by
      rw [← hend, hline, hfield, List.append_assoc]
    obtain ⟨skipped, hskipped, hhead⟩ := exists_skipped hmnemonic hboth
    refine ⟨skipped, Byte.semicolon :: mnemonic, ?_, Or.inr ⟨mnemonic, hmnemonic, rfl⟩, ?_⟩
    · rw [hfield, dropWhile_ne_append_cons hcomp, hskipped]
    · exact hhead.imp_right fun hs => ⟨hs, by simp⟩
  · exact ⟨[], [], dropWhile_ne_of_notMem hmem, Or.inl rfl, Or.inl rfl⟩

/-- **A well-formed computation has its four parts.** -/
theorem exists_parts {line : Bytes} (h : WellFormedComputation line) :
    ∃ dest comp skipped jump, Parts line dest comp skipped jump := by
  by_cases hmem : Byte.equalsSign ∈ line
  · obtain ⟨mnemonic, field, hcut⟩ := exists_cutAt hmem
    obtain ⟨hmnemonic, hmark⟩ := h.dest mnemonic field hcut
    have hline : line = (mnemonic ++ [Byte.equalsSign]) ++ field := by
      rw [hcut.2]
      simp
    obtain ⟨skipped, jump, hrest, hjump, hskipped⟩ := exists_jump h hline
    have hcomp := h.comp
    rw [compField_of_cutAt hcut, if_neg hmark] at hcomp
    refine ⟨_, _, skipped, jump, ?_, Or.inr ⟨mnemonic, hmnemonic, rfl⟩, hcomp, hjump, hskipped, ?_⟩
    · rw [List.append_assoc, ← hrest, List.append_assoc, List.takeWhile_append_dropWhile]
      exact hline
    · simp
  · obtain ⟨skipped, jump, hrest, hjump, hskipped⟩ := exists_jump h (List.nil_append line).symm
    have hcomp := h.comp
    rw [compField_of_notMem hmem] at hcomp
    refine ⟨[], _, skipped, jump, ?_, Or.inl rfl, hcomp, hjump, hskipped, fun _ hin => ?_⟩
    · rw [List.nil_append, List.append_assoc, ← hrest, List.takeWhile_append_dropWhile]
    · apply hmem
      apply (List.dropWhile_suffix _).mem
      rw [hrest]
      exact List.mem_append_left jump hin

end Computation

/-! ## Encoding in strict mode -/

namespace Assembly

/-- Strict mode encodes a computation exactly when it has no problem. -/
theorem run_encodeContent_strict {a : Assembler} (hmode : a.mode = .strict) {number : Int}
    {line : Bytes} {word : Word} {b : Assembler} :
    (encodeContent .computation number line).run a = .ok word b ↔
      Computation.problems line = [] ∧ word = (Computation.instruction line).encode ∧ b = a := by
  rw [run_encodeContent_computation_strict hmode]
  cases Computation.problems line with
  | nil =>
    constructor
    · rintro ⟨⟩
      exact ⟨rfl, rfl, rfl⟩
    · rintro ⟨-, rfl, rfl⟩
      rfl
  | cons problem problems =>
    constructor
    · rintro ⟨⟩
    · rintro ⟨⟨⟩, -⟩

end Assembly

open HackAssembly.Computation

/-- **What strict mode encodes can be decoded** to the line itself, with its computation in
canonical spelling, and without the text from its first `;` up to its last one, which a line has
only when it has more than one `;`.  So two lines with the same word differ at most in the spelling
of the computation and in that text. -/
theorem strict_computation_is_decoded (line : Bytes) (number : Int) (a b : Assembler) (word : Word)
    (hmode : a.mode = .strict)
    (h : (encodeContent .computation number line).run a = .ok word b) :
    ∃ dest comp skipped jump, Parts line dest comp skipped jump ∧
      (line.count Byte.semicolon ≤ 1 → skipped = []) ∧
      disassemble (Binary.render word) = .ok (dest ++ Comp.canonical comp ++ jump) ∧
      ∀ (other : Bytes) (number' : Int) (a' b' : Assembler), a'.mode = .strict →
        (encodeContent .computation number' other).run a' = .ok word b' →
        ∃ comp' skipped', Parts other dest comp' skipped' jump ∧
          Comp.canonical comp' = Comp.canonical comp := by
  obtain ⟨hproblems, hword, -⟩ := (run_encodeContent_strict hmode).1 h
  obtain ⟨dest, comp, skipped, jump, hparts⟩ := exists_parts (problems_eq_nil.1 hproblems)
  refine ⟨dest, comp, skipped, jump, hparts, hparts.skipped_eq_nil, ?_, ?_⟩
  · rw [disassemble_eq_ok]
    exact ⟨instruction line, by rw [hword]; rfl, hparts.render_instruction.symm⟩
  · intro other number' a' b' hmode' h'
    obtain ⟨hproblems', hword', -⟩ := (run_encodeContent_strict hmode').1 h'
    obtain ⟨dest', comp', skipped', jump', hparts'⟩ := exists_parts (problems_eq_nil.1 hproblems')
    -- the word determines the instruction, and that determines the parts that are read
    have hsame : instruction line = instruction other := by
      have hdecode := Instruction.decode_encode (instruction line)
      rw [← hword, hword', Instruction.decode_encode] at hdecode
      exact (Except.ok.inj hdecode).symm
    obtain ⟨c, d, j, hi, hdest, hcomp, hjump⟩ := hparts.instruction_eq
    obtain ⟨c', d', j', hi', hdest', hcomp', hjump'⟩ := hparts'.instruction_eq
    rw [hi, hi'] at hsame
    cases hsame
    rw [← hdest] at hdest'
    rw [← hjump] at hjump'
    subst hdest' hjump'
    exact ⟨comp', skipped', hparts', by rw [hcomp, hcomp']⟩

/-- An exchanged spelling behind a destination and before a jump; and a line with the same word that
has more than one `;`. -/
theorem strict_computation_is_decoded_exchanged :
    (Assembler.fresh .strict).mode = .strict ∧
      (encodeContent .computation 1 (ascii "AM=1+D;JLE")).run (.fresh .strict)
        = .ok 0b1110011111101110 (.fresh .strict) ∧
      ∃ dest comp jump, Parts (ascii "AM=1+D;JLE") dest comp [] jump ∧
        dest ++ Comp.canonical comp ++ jump = ascii "AM=D+1;JLE" ∧
        ∃ comp' skipped', Parts (ascii "AM=D+1;;JGT;JLE") dest comp' skipped' jump := by
  have hrun : (encodeContent .computation 1 (ascii "AM=1+D;JLE")).run (.fresh .strict)
      = .ok 0b1110011111101110 (.fresh .strict) :=
    (run_encodeContent_strict rfl).2 ⟨by decide +kernel, by decide +kernel, rfl⟩
  have hother : (encodeContent .computation 2 (ascii "AM=D+1;;JGT;JLE")).run (.fresh .strict)
      = .ok 0b1110011111101110 (.fresh .strict) :=
    (run_encodeContent_strict rfl).2 ⟨by decide +kernel, by decide +kernel, rfl⟩
  obtain ⟨dest, comp, skipped, jump, hparts, hskipped, hdecoded, hsame⟩ :=
    strict_computation_is_decoded _ _ _ _ _ rfl hrun
  obtain rfl := hskipped (by decide +kernel)
  obtain ⟨comp', skipped', hparts', -⟩ := hsame _ _ _ _ rfl hother
  refine ⟨rfl, hrun, dest, comp, jump, hparts, ?_, comp', skipped', hparts'⟩
  exact Except.ok.inj (hdecoded.symm.trans (by decide +kernel))

/-- **Text can be skipped**: the word of this line does not decode to the line with its computation
in canonical spelling. -/
theorem text_between_semicolons_is_skipped :
    ∃ word, (encodeContent .computation 1 (ascii "0;x;JMP")).run (.fresh .strict)
        = .ok word (.fresh .strict) ∧
      ¬ ∃ before after, ascii "0;x;JMP" = before ++ compField (ascii "0;x;JMP") ++ after ∧
        disassemble (Binary.render word)
          = .ok (before ++ Comp.canonical (compField (ascii "0;x;JMP")) ++ after) := by
  have hcanonical : Comp.canonical (compField (ascii "0;x;JMP")) = compField (ascii "0;x;JMP") := by
    decide +kernel
  refine ⟨0b1110101010000111, ?_, ?_⟩
  · exact (run_encodeContent_strict rfl).2 ⟨by decide +kernel, by decide +kernel, rfl⟩
  · rintro ⟨before, after, hline, hdecoded⟩
    rw [hcanonical, ← hline] at hdecoded
    exact absurd hdecoded (by decide +kernel)

end HackAssembly
