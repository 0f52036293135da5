import HackAssembly.Proofs.LineForm
import HackAssembly.Proofs.Run

/-!
# The word of a computation

What a computation is encoded as and what is reported about it, for every line, said on its bytes.

The word is written in digits: `111`, and then seven digits for the computation, three for the
destination and three for the jump.  Each field has a rule of its own (`FieldDigits`).

* The computation is looked up in a table of spellings (`Comp.codes`).
* The destination is a word of the shape `A?M?D?` before an `=` that something follows; its digits
  say which of the three letters it has.
* The jump is one of the mnemonics in a table (`Jump.codes`), at the end of the line, behind a `;`
  and something before that.

A field that does not follow its rule is all zeros.  It is reported unless it is just not there
(`FieldReports`), and the reports come in the order of the fields.  Lenient mode records all of
them, strict mode ends with the first one (`computation_meets_specification`).

The three readers of a line are tied to the rules one by one.  The destination is the only one that
takes an argument: a word of the shape `A?M?D?` has no `=` in it, so the `=` behind it is the first
one of the line.
-/

namespace HackAssembly

open Assembly

/-! ## The rules -/

/-- A line that starts with a destination and its `=`, and goes on behind them. -/
def StartsInDest (line dest : Bytes) : Prop :=
  Dest.Names dest ∧ ∃ rest, rest ≠ [] ∧ line = dest ++ Byte.equalsSign :: rest

/-- The digits of the three fields of a line. -/
structure FieldDigits (line comp dest jump : Bytes) : Prop where
  comp_eq : comp = (Comp.codes.lookup (compField line)).getD (ascii "0000000")
  dest_eq : (∃ d, StartsInDest line d ∧ dest = Dest.places d) ∨
    (¬ ∃ d, StartsInDest line d) ∧ dest = ascii "000"
  jump_eq : (∃ before mnemonic, before ≠ [] ∧ line = before ++ Byte.semicolon :: mnemonic ∧
      Jump.codes.lookup mnemonic = some jump) ∨
    ¬ EndsInJump line ∧ jump = ascii "000"

/-- The problems of a line: those of its fields that are not understood, in their order. -/
structure FieldReports (line : Bytes) (problems : List Problem) : Prop where
  order : problems.Sublist [.dest, .comp, .jump]
  dest : .dest ∈ problems ↔ ∃ before after, CutAt Byte.equalsSign line before after ∧ after ≠ [] ∧
    ¬ Dest.Names before
  comp : .comp ∈ problems ↔ compField line ∉ Comp.codes.map Prod.fst
  jump : .jump ∈ problems ↔ Byte.semicolon ∈ line ∧ ¬ EndsInJump line

/-! ## The readers -/

/-- The `=` behind a destination is the first one. -/
theorem StartsInDest.cutAt {line d : Bytes} (h : StartsInDest line d) :
    ∃ after, after ≠ [] ∧ CutAt Byte.equalsSign line d after := by
  obtain ⟨hnames, rest, hrest, hline⟩ := h
  have hfield := (Dest.isField_mnemonics d (Dest.names_iff.1 hnames)).2
  exact ⟨rest, hrest, notMem_of_isField hfield (by decide), hline⟩

namespace Computation

theorem comp_digits (line : Bytes) :
    Binary.render ((comp? line).getD .dAndA).bits
      = (Comp.codes.lookup (compField line)).getD (ascii "0000000") := by
  have hzero : Binary.render Comp.dAndA.bits = ascii "0000000" := by decide
  rw [Comp.lookup_codes, comp?, compText_eq]
  cases Comp.read? (compField line) with
  | none => exact hzero
  | some c => rfl

theorem dest_digits (line : Bytes) :
    (∃ d, StartsInDest line d ∧
        Binary.render ((dest? line).getD .nowhere).bits = Dest.places d) ∨
      (¬ ∃ d, StartsInDest line d) ∧
        Binary.render ((dest? line).getD .nowhere).bits = ascii "000" := by
  have hzero : Binary.render Dest.nowhere.bits = ascii "000" := by decide
  by_cases hmem : Byte.equalsSign ∈ line
  · obtain ⟨before, after, hcut⟩ := exists_cutAt hmem
    rw [dest?_of_cutAt hcut]
    by_cases hstart : after ≠ [] ∧ Dest.Names before
    · obtain ⟨hafter, hnames⟩ := hstart
      have hread : Dest.read? before ≠ none := by
        intro hnone
        exact Dest.read?_eq_none.1 hnone (Dest.names_iff.1 hnames)
      obtain ⟨dest, hdest⟩ := Option.ne_none_iff_exists'.1 hread
      refine Or.inl ⟨before, ⟨hnames, after, hafter, hcut.2⟩, ?_⟩
      rw [if_neg hafter, hdest]
      exact Dest.render_bits hdest
    · refine Or.inr ⟨?_, ?_⟩
      · intro ⟨d, hd⟩
        obtain ⟨after', hafter', hcut'⟩ := hd.cutAt
        obtain ⟨rfl, rfl⟩ := hcut.unique hcut'
        exact hstart ⟨hafter', hd.1⟩
      · by_cases hafter : after = []
        · rw [if_pos hafter]
          exact hzero
        · have hread : Dest.read? before = none := by
            rw [Dest.read?_eq_none, ← Dest.names_iff]
            intro hnames
            exact hstart ⟨hafter, hnames⟩
          rw [if_neg hafter, hread]
          exact hzero
  · refine Or.inr ⟨?_, ?_⟩
    · intro ⟨d, hd⟩
      obtain ⟨after, -, hcut⟩ := hd.cutAt
      exact hmem hcut.mem
    · rw [dest?_of_notMem hmem]
      exact hzero

theorem jump_digits (line : Bytes) :
    (∃ before mnemonic, before ≠ [] ∧ line = before ++ Byte.semicolon :: mnemonic ∧
        Jump.codes.lookup mnemonic = some (Binary.render ((jump? line).getD .never).bits)) ∨
      ¬ EndsInJump line ∧ Binary.render ((jump? line).getD .never).bits = ascii "000" := by
  by_cases hends : EndsInJump line
  · obtain ⟨before, mnemonic, hbefore, hmem, hline⟩ := hends
    obtain ⟨jump, hjump, rfl⟩ := Jump.exists_spelling_of_mem hmem
    refine Or.inl ⟨before, jump.spelling, hbefore, hline, ?_⟩
    rw [hline, jump?_append hbefore hjump]
    exact Jump.lookup_codes hjump
  · have hzero : Binary.render Jump.never.bits = ascii "000" := by decide
    refine Or.inr ⟨hends, ?_⟩
    by_cases hmem : Byte.semicolon ∈ line
    · rw [jump?_eq_none.2 ⟨hmem, hends⟩]
      exact hzero
    · rw [jump?_of_notMem hmem]
      exact hzero

/-- **The digits of an instruction** follow the rules of its fields. -/
theorem exists_fieldDigits (line : Bytes) :
    ∃ comp dest jump, FieldDigits line comp dest jump ∧
      Binary.render (instruction line).encode = ascii "111" ++ comp ++ dest ++ jump := by
  refine ⟨_, _, _, ⟨comp_digits line, dest_digits line, jump_digits line⟩, ?_⟩
  rw [instruction, Instruction.encode, Word.render_ofFields]

theorem mem_missing {α : Type} {field : Option α} {problem other : Problem} :
    other ∈ missing field problem ↔ other = problem ∧ field = none := by
  cases field <;> simp [missing]

theorem missing_sublist {α : Type} (field : Option α) (problem : Problem) :
    (missing field problem).Sublist [problem] := by
  cases field <;> simp [missing]

/-- **The problems of a line** are the fields that are not understood. -/
theorem fieldReports_problems (line : Bytes) : FieldReports line (problems line) := by
  have hmem : ∀ problem, problem ∈ problems line ↔ (problem = .dest ∧ dest? line = none) ∨
      (problem = .comp ∧ comp? line = none) ∨ (problem = .jump ∧ jump? line = none) := by
    intro problem
    simp only [problems, List.mem_append, mem_missing, or_assoc]
  refine ⟨?_, ?_, ?_, ?_⟩
  · exact ((missing_sublist _ _).append (missing_sublist _ _)).append (missing_sublist _ _)
  · simp [hmem, dest?_eq_none, DestUnknown, Dest.names_iff]
  · simp [hmem, comp?_eq_none, CompUnknown, Comp.spellings]
  · simp [hmem, jump?_eq_none, JumpUnknown]

end Computation

/-! ## Encoding -/

/-- **A computation is encoded as specified**, whatever its line is.  The word follows the rules of
the fields, lenient mode records a diagnostic for each field that is not understood, and strict mode
is rejected with the first of these, or gives the same word and records nothing. -/
theorem computation_meets_specification (line : Bytes) (number : Int) (a : Assembler) :
    ∃ word problems, FieldReports line problems ∧
      (∃ comp dest jump, FieldDigits line comp dest jump ∧
        Binary.render word = ascii "111" ++ comp ++ dest ++ jump) ∧
      (a.mode = .lenient → (encodeContent .computation number line).run a
        = .ok word (a.diagnose (problems.map fun problem =>
          { line := number, content := line, problem }))) ∧
      (a.mode = .strict → (encodeContent .computation number line).run a = match problems with
        | [] => .ok word a
        | problem :: _ => .error (.rejected { line := number, content := line, problem }) a) := by
  refine ⟨_, _, Computation.fieldReports_problems line, Computation.exists_fieldDigits line, ?_, ?_⟩
  · intro hmode
    exact run_encodeContent_computation hmode number line
  · intro hmode
    exact run_encodeContent_computation_strict hmode number line

/-- A `;` before the first `=` leaves no field that is understood. -/
theorem computation_meets_specification_marks :
    (Assembler.fresh .lenient).mode = .lenient ∧ (Assembler.fresh .strict).mode = .strict ∧
      (encodeContent .computation 7 (ascii "0;D=M")).run (.fresh .strict)
        = .error (.rejected ⟨7, ascii "0;D=M", .dest⟩) (.fresh .strict) ∧
      ∃ word, (encodeContent .computation 7 (ascii "0;D=M")).run (.fresh .lenient)
        = .ok word ((Assembler.fresh .lenient).diagnose [⟨7, ascii "0;D=M", .dest⟩,
          ⟨7, ascii "0;D=M", .comp⟩, ⟨7, ascii "0;D=M", .jump⟩]) := by
  have hall : ∀ problems, FieldReports (ascii "0;D=M") problems →
      problems = [.dest, .comp, .jump] := by
    intro problems h
    have hcut : CutAt Byte.equalsSign (ascii "0;D=M") (ascii "0;D") (ascii "M") :=
      ⟨by decide, rfl⟩
    have hdest := h.dest.2 ⟨_, _, hcut, by decide, by rw [Dest.names_iff]; decide⟩
    have hcomp := h.comp.2 (by decide +kernel)
    have hjump := h.jump.2 (by decide +kernel : JumpUnknown (ascii "0;D=M"))
    have hthree : ∀ problems ∈ [Problem.dest, .comp, .jump].sublists, .dest ∈ problems →
        .comp ∈ problems → .jump ∈ problems → problems = [.dest, .comp, .jump] := by decide
    exact hthree problems (List.mem_sublists.2 h.order) hdest hcomp hjump
  obtain ⟨_, problems, hreports, -, -, hstrict⟩ :=
    computation_meets_specification (ascii "0;D=M") 7 (.fresh .strict)
  obtain ⟨word, problems', hreports', -, hlenient, -⟩ :=
    computation_meets_specification (ascii "0;D=M") 7 (.fresh .lenient)
  obtain rfl := hall problems hreports
  obtain rfl := hall problems' hreports'
  exact ⟨rfl, rfl, hstrict rfl, word, hlenient rfl⟩

end HackAssembly
