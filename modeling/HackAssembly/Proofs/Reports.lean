import HackAssembly.Proofs.StrictLanguage

/-!
# What a lenient run reports

The diagnostics of a lenient run are those of the three passes, one after the other.  Here they are
listed by what is wrong with a line and in the words of the reports, without the passes:

* `labelReports` goes through all statements: labels behind too many instructions, and lines that
  start like a declaration and are none;
* `operandReports` goes through the instructions: variables that no address is left for, each where
  it is used first, and operands that are neither symbols nor numerals;
* `fieldReports` goes through the instructions: constants that are too large, and the fields of
  computations that are not understood.

The one place where the passes and the lists differ is the second.  The pass compares the next free
address with the largest one, while the list speaks of the ordinal of a variable; where a variable
is used first, both count the variables before it (`variableOrdinal_of_first`).
-/

namespace HackAssembly

open Assembly

/-- What a diagnostic shows: the number of the line, the line and the wording. -/
abbrev Report := Int × Bytes × Bytes

def Diagnostic.report (d : Diagnostic) : Report := (d.line, d.content, d.problem.message)

def Statement.report (st : Statement) (message : String) : Report :=
  (st.line, st.content, ascii message)

namespace Program

def labelReports (p : Program) : List Report :=
  p.zipIdx.flatMap fun (st, i) =>
    if ∃ name, Declares st.content name then
      if 32767 < (instructions (p.take i)).length then [st.report "address larger than 32767"]
      else []
    else if st.content.head? = some Byte.openParen then [st.report "wrong label format"]
    else []

/-- The reports on operands.  Instructions that use the same symbol have the same content. -/
def operandReports (p : Program) : List Report :=
  p.instructions.zipIdx.flatMap fun (st, i) =>
    if ∃ name, UsesSymbol st.content name then
      if p.IsVariable (st.content.drop 1) ∧
          (∀ earlier ∈ p.instructions.take i, earlier.content ≠ st.content) ∧
          32752 ≤ p.variableOrdinal (st.content.drop 1) then
        [st.report "address larger than 32767"]
      else []
    else if st.content.head? = some Byte.atSign ∧ ¬ ∃ digits, LoadsConstant st.content digits then
      [st.report "wrong variable or label format"]
    else []

def fieldReports (p : Program) : List Report :=
  p.instructions.flatMap fun (st : Statement) =>
    if ∃ name, UsesSymbol st.content name then []
    else if ∃ digits, LoadsConstant st.content digits then
      if 32767 < Decimal.value (st.content.drop 1) then [st.report "constant larger than 32767"]
      else []
    else
      (if DestUnknown st.content then [st.report "wrong c command of dest code format"] else [])
        ++ (if CompUnknown st.content then [st.report "wrong c command of comp code format"]
          else [])
        ++ (if JumpUnknown st.content then [st.report "wrong c command of jump code format"]
          else [])

/-! ## The reports of the passes -/

theorem map_report_ite (st : Statement) (c : Prop) [Decidable c] (problem : Problem) :
    (if c then [problem] else []).map (Diagnostic.report ∘ st.diagnostic)
      = if c then [((st.line : Int), st.content, problem.message)] else [] := by
  split <;> rfl

/-- **The first pass.** -/
theorem report_gatherDiagnostics (p : Program) :
    p.gatherDiagnostics.map Diagnostic.report = p.labelReports := by
  rw [gatherDiagnostics, along, List.map_flatMap, labelReports]
  apply List.flatMap_congr
  rintro ⟨st, i⟩ -
  dsimp only
  rw [List.map_map, gatherProblems]
  cases hlabel : st.label? with
  | some name =>
    have hdeclares : ∃ name, Declares st.content name := ⟨name, declaredLabel?_eq_some.1 hlabel⟩
    rw [if_pos hdeclares]
    exact map_report_ite st _ _
  | none =>
    have hdeclares : ¬ ∃ name, Declares st.content name := declaredLabel?_eq_none_iff.1 hlabel
    rw [if_neg hdeclares]
    exact (map_report_ite st _ _).trans (if_congr (by simp [opensLabel]) rfl rfl)

/-- Where a variable is used first, its ordinal is the number of variables before. -/
theorem variableOrdinal_of_first {p : Program} {earlier later : List Statement} {st : Statement}
    {name : Bytes} (hsplit : p.instructions = earlier ++ st :: later)
    (hname : usedName? st.content = some name) (hnew : name ∉ usedNames earlier) :
    p.variableOrdinal name = (unknowns p.isKnown (usedNames earlier)).card := by
  have huses : p.uses = usedNames earlier ++ name :: usedNames later := by
    simp only [uses, hsplit, usedNames, List.filterMap_append, List.filterMap_cons, hname]
  rw [variableOrdinal, ordinal, huses, takeWhile_ne_append_cons hnew]

theorem resolveProblems_of_use {known : Bytes → Bool} {earlier : List Statement} {st : Statement}
    {name : Bytes} (hname : usedName? st.content = some name) :
    resolveProblems known earlier st
      = if known name = false ∧ name ∉ usedNames earlier ∧
          32752 ≤ (unknowns known (usedNames earlier)).card then [.addressTooLarge] else [] := by
  have hlarge : largestAddress < firstVariable + (unknowns known (usedNames earlier)).card ↔
      32752 ≤ (unknowns known (usedNames earlier)).card := by
    rw [largestAddress, firstVariable]
    omega
  rw [resolveProblems, hname]
  dsimp only
  split
  · next hold =>
    rw [if_neg]
    rintro ⟨hknown, hnew, -⟩
    simp [hknown, hnew] at hold
  · next hnew =>
    refine if_congr (hlarge.trans ?_) rfl rfl
    obtain ⟨hknown, hunused⟩ : known name = false ∧ name ∉ usedNames earlier := by
      simpa using hnew
    simp [hknown, hunused]

/-- **The second pass.** -/
theorem report_resolveDiagnostics (p : Program) :
    p.resolveDiagnostics.map Diagnostic.report = p.operandReports := by
  rw [resolveDiagnostics, along, List.map_flatMap, operandReports]
  apply List.flatMap_congr
  rintro ⟨st, i⟩ hst
  have hat : p.instructions[i]? = some st := List.mem_zipIdx_iff_getElem?.1 hst
  have hsplit : p.instructions
      = p.instructions.take i ++ st :: p.instructions.drop (i + 1) := by
    obtain ⟨hi, hget⟩ := List.getElem?_eq_some_iff.1 hat
    rw [← hget, List.getElem_cons_drop, List.take_append_drop]
  dsimp only
  rw [List.map_map]
  cases hname : usedName? st.content with
  | some name =>
    have huse := usedName?_eq_some.1 hname
    have hdrop : st.content.drop 1 = name := by rw [huse.2]; rfl
    have hvariable : p.IsVariable name ↔ p.isKnown name = false := by
      rw [← mem_unknowns_uses, mem_unknowns]
      exact and_iff_right (List.mem_filterMap.2 ⟨st, List.mem_of_getElem? hat, hname⟩)
    have hfirst : (∀ earlier ∈ p.instructions.take i, earlier.content ≠ st.content) ↔
        name ∉ usedNames (p.instructions.take i) := by
      rw [mem_usedNames, huse.2]
      constructor
      · rintro h ⟨earlier, hearlier, huse'⟩
        exact h earlier hearlier huse'.2
      · intro h earlier hearlier hsame
        exact h ⟨earlier, hearlier, huse.1, hsame⟩
    rw [if_pos ⟨name, huse⟩, resolveProblems_of_use hname, map_report_ite, hdrop]
    refine if_congr ?_ rfl rfl
    rw [hvariable, hfirst]
    refine and_congr_right fun _ => and_congr_right fun hnew => ?_
    rw [variableOrdinal_of_first hsplit hname hnew]
  | none =>
    have hnone := usedName?_eq_none_iff.1 hname
    rw [if_neg hnone, resolveProblems, hname]
    refine (map_report_ite st _ _).trans (if_congr ?_ rfl rfl)
    rw [Bool.and_eq_true, opensAddress, beq_iff_eq, beq_iff_eq, ← ofContent_eq_constant]
    refine and_congr_right fun _ => ?_
    cases hkind : Kind.ofContent st.content with
    | symbol => exact absurd (ofContent_eq_symbol.1 hkind) hnone
    | constant => simp
    | computation => simp

/-- **The third pass.** -/
theorem report_encodeDiagnostics (p : Program) :
    p.encodeDiagnostics.map Diagnostic.report = p.fieldReports := by
  rw [encodeDiagnostics, List.map_flatMap, fieldReports]
  refine List.flatMap_congr fun st _ => ?_
  rw [List.map_map, encodeProblems]
  cases hkind : Kind.ofContent st.content with
  | symbol =>
    rw [if_pos (ofContent_eq_symbol.1 hkind)]
    rfl
  | constant =>
    have hsymbol : ¬ ∃ name, UsesSymbol st.content name := by
      rw [← ofContent_eq_symbol, hkind]
      decide
    rw [if_neg hsymbol, if_pos (ofContent_eq_constant.1 hkind)]
    exact map_report_ite st _ _
  | computation =>
    have hsymbol : ¬ ∃ name, UsesSymbol st.content name := by
      rw [← ofContent_eq_symbol, hkind]
      decide
    have hconstant : ¬ ∃ digits, LoadsConstant st.content digits := by
      rw [← ofContent_eq_constant, hkind]
      decide
    have hfield : ∀ {α : Type} {field : Option α} {unknown : Prop} [Decidable unknown]
        (problem : Problem), (field = none ↔ unknown) →
        (Computation.missing field problem).map (Diagnostic.report ∘ st.diagnostic)
          = if unknown then [((st.line : Int), st.content, problem.message)] else [] := by
      intro α field unknown _ problem hunknown
      rw [← map_report_ite, Computation.missing]
      cases field <;> simp_all
    rw [if_neg hsymbol, if_neg hconstant]
    dsimp only
    rw [Computation.problems, List.map_append, List.map_append,
      hfield .dest Computation.dest?_eq_none, hfield .comp Computation.comp?_eq_none,
      hfield .jump Computation.jump?_eq_none]
    rfl

end Program

/-! ## Runs -/

open Program

/-- **The diagnostics are complete, exact and in order**: a lenient run over any text reports what
is wrong with labels, then what is wrong with operands, and then what is wrong with constants and
fields. -/
theorem lenient_run_reports (s : Bytes) (a₀ : Assembler) (h : a₀.mode = .lenient) :
    ∃ a, (assemble { bytes := s, failure := none }).run a₀ = .ok () a ∧
      a.diagnostics.toList.map Diagnostic.report
        = (ofText s).labelReports ++ (ofText s).operandReports ++ (ofText s).fieldReports := by
  obtain ⟨a, hrun, -, ha⟩ := run_assemble s h
  refine ⟨a, hrun, ?_⟩
  rw [ha.diagnostics, List.map_append, List.map_append, report_gatherDiagnostics,
    report_resolveDiagnostics, report_encodeDiagnostics]

/-- A line can be reported by all three passes, and a computation for each of its fields. -/
theorem lenient_run_reports_fields :
    (Assembler.fresh .lenient).mode = .lenient ∧ ∃ a,
      (assemble ⟨ascii "X = Q ; JXX\n\n@40000 // c\r@1x\n(L\r\n", none⟩).run (.fresh .lenient)
        = .ok () a ∧
      a.diagnostics.toList.map Diagnostic.report =
        [(5, ascii "(L", ascii "wrong label format"),
          (4, ascii "@1x", ascii "wrong variable or label format"),
          (1, ascii "X=Q;JXX", ascii "wrong c command of dest code format"),
          (1, ascii "X=Q;JXX", ascii "wrong c command of comp code format"),
          (1, ascii "X=Q;JXX", ascii "wrong c command of jump code format"),
          (3, ascii "@40000", ascii "constant larger than 32767"),
          (4, ascii "@1x", ascii "wrong c command of comp code format"),
          (5, ascii "(L", ascii "wrong c command of comp code format")] := by
  obtain ⟨a, hrun, hreports⟩ := lenient_run_reports
    (ascii "X = Q ; JXX\n\n@40000 // c\r@1x\n(L\r\n") (.fresh .lenient) rfl
  exact ⟨rfl, a, hrun, hreports.trans (by decide +kernel)⟩

end HackAssembly
