import HackAssembly.Proofs.CanonicalProgram
import HackAssembly.Proofs.LineForm

/-!
# The language of strict mode

Strict mode takes a program exactly when the program is `WellFormed`: each of its lines is, no label
stands behind too many instructions, and there are not too many variables
(`strict_run_accepts`).

A strict run fails at the first problem of the lenient one, so it succeeds exactly when no pass has
a problem (`strict_run_ok_iff`).  What is left is to say when a pass has none.  The first and the
third look at each statement by itself, but for the number of instructions before a label.  The
second counts variables: a new one is a problem when it comes behind 32752 others, so there is none
exactly when there are at most that many in all (`along_resolveProblems_eq_nil`).
-/

namespace HackAssembly

open Assembly

inductive WellFormedLine : Bytes → Prop
  | declaration {name : Bytes} (h : Symbol.isSymbol name = true) :
    WellFormedLine (Byte.openParen :: (name ++ [Byte.closeParen]))
  | symbol {name : Bytes} (h : Symbol.isSymbol name = true) :
    WellFormedLine (Byte.atSign :: name)
  | constant {digits : Bytes} (h : Decimal.isNumeral digits = true)
    (hsmall : Decimal.value digits ≤ largestAddress) : WellFormedLine (Byte.atSign :: digits)
  | computation {line : Bytes} (h : WellFormedComputation line) : WellFormedLine line

namespace Program

/-- A name that is used without being a label or predefined. -/
def IsVariable (p : Program) (name : Bytes) : Prop :=
  (∃ st ∈ p, UsesSymbol st.content name) ∧ (∀ st ∈ p, ¬ Declares st.content name) ∧
    SymbolTable.predefined.contains name = false

/-- A program that strict mode takes. -/
structure WellFormed (p : Program) : Prop where
  lines : ∀ st ∈ p, WellFormedLine st.content
  labels : ∀ (i : Nat) (h : i < p.length), (∃ name, Declares p[i].content name) →
    (instructions (p.take i)).length ≤ 32767
  room : ∀ names : Finset Bytes, (∀ name ∈ names, p.IsVariable name) → names.card ≤ 32752

/-! ## Variables -/

theorem labelAddress?_eq_none {p : Program} {name : Bytes} :
    p.labelAddress? name = none ↔ ∀ st ∈ p, ¬ Declares st.content name := by
  have hnone : p.labelAddress? name = none ↔ p.upToLabel name = [] := by
    rw [labelAddress?]
    split <;> simp_all
  rw [hnone, upToLabel, List.rdropWhile_eq_nil_iff]
  refine forall₂_congr fun st _ => ?_
  rw [bne_iff_ne, ne_eq, Statement.label?, declaredLabel?_eq_some]

theorem isKnown_eq_false {p : Program} {name : Bytes} :
    p.isKnown name = false ↔
      (∀ st ∈ p, ¬ Declares st.content name) ∧ SymbolTable.predefined.contains name = false := by
  rw [isKnown, Bool.or_eq_false_iff, ← labelAddress?_eq_none, Option.isSome_eq_false_iff,
    Option.isNone_iff_eq_none]

/-- A line that uses a symbol is an instruction. -/
theorem mem_instructions_of_usesSymbol {p : Program} {st : Statement} {name : Bytes} (hst : st ∈ p)
    (h : UsesSymbol st.content name) : st ∈ p.instructions := by
  have hlabel : st.label? = none := by
    apply declaredLabel?_eq_none
    rw [h.2]
    rfl
  exact List.mem_filter.2 ⟨hst, by rw [hlabel]; rfl⟩

theorem mem_usedNames {l : List Statement} {name : Bytes} :
    name ∈ usedNames l ↔ ∃ st ∈ l, UsesSymbol st.content name := by
  rw [usedNames, List.mem_filterMap]
  exact exists_congr fun st => and_congr_right fun _ => usedName?_eq_some

theorem mem_uses {p : Program} {name : Bytes} :
    name ∈ p.uses ↔ ∃ st ∈ p, UsesSymbol st.content name := by
  rw [uses, mem_usedNames]
  constructor
  · rintro ⟨st, hst, hname⟩
    exact ⟨st, (List.mem_filter.1 hst).1, hname⟩
  · rintro ⟨st, hst, hname⟩
    exact ⟨st, mem_instructions_of_usesSymbol hst hname, hname⟩

theorem mem_unknowns_uses {p : Program} {name : Bytes} :
    name ∈ unknowns p.isKnown p.uses ↔ p.IsVariable name := by
  rw [mem_unknowns, mem_uses, isKnown_eq_false, IsVariable]

instance (p : Program) (name : Bytes) : Decidable (p.IsVariable name) :=
  decidable_of_iff (name ∈ unknowns p.isKnown p.uses) mem_unknowns_uses

/-- The variables of a program are counted by any set that holds them. -/
theorem card_unknowns_le_iff {p : Program} {n : Nat} :
    (unknowns p.isKnown p.uses).card ≤ n ↔
      ∀ names : Finset Bytes, (∀ name ∈ names, p.IsVariable name) → names.card ≤ n := by
  constructor
  · intro h names hnames
    have hsub : names ⊆ unknowns p.isKnown p.uses :=
      fun name hname => mem_unknowns_uses.2 (hnames name hname)
    exact (Finset.card_le_card hsub).trans h
  · intro h
    exact h _ fun name hname => mem_unknowns_uses.1 hname

/-! ## Passes without a problem -/

theorem along_eq_nil_iff {α β : Type} {f : List α → α → List β} {l : List α} :
    along f l = [] ↔ ∀ (i : Nat) (h : i < l.length), f (l.take i) l[i] = [] := by
  rw [along, List.flatMap_eq_nil_iff]
  constructor
  · intro h i hi
    exact h (l[i], i) (List.mem_zipIdx_iff_getElem?.2 (List.getElem?_eq_getElem hi))
  · rintro h ⟨x, i⟩ hx
    have hat : l[i]? = some x := List.mem_zipIdx_iff_getElem?.1 hx
    obtain ⟨hi, rfl⟩ := List.getElem?_eq_some_iff.1 hat
    exact h i hi

theorem gatherProblems_eq_nil {earlier : Program} {st : Statement} :
    gatherProblems earlier st = [] ↔
      ((∃ name, Declares st.content name) → (instructions earlier).length ≤ 32767) ∧
        (st.label? = none → opensLabel st.content = false) := by
  rw [gatherProblems]
  cases hlabel : st.label? with
  | some name =>
    have hdeclares : ∃ name, Declares st.content name := ⟨name, declaredLabel?_eq_some.1 hlabel⟩
    rw [ite_eq_right_iff, largestAddress]
    simp [hdeclares]
  | none =>
    have hdeclares : ¬ ∃ name, Declares st.content name := declaredLabel?_eq_none_iff.1 hlabel
    simp [hdeclares]

/-- **No problem in the second pass**: every operand has its form, and the last variable still has
an address. -/
theorem along_resolveProblems_eq_nil {known : Bytes → Bool} (l : List Statement) :
    along (fun earlier st => (resolveProblems known earlier st).map st.diagnostic) l = [] ↔
      (∀ st ∈ l, opensAddress st.content = true → Kind.ofContent st.content ≠ .computation) ∧
        (unknowns known (usedNames l)).card ≤ 32752 := by
  induction l using List.reverseRecOn with
  | nil => simp [along, usedNames, unknowns]
  | append_singleton l st ih =>
    rw [along_concat, List.append_eq_nil_iff, ih, List.map_eq_nil_iff, resolveProblems,
      usedNames_concat, List.forall_mem_append, List.forall_mem_singleton]
    cases hname : usedName? st.content with
    | none =>
      have hform : (if opensAddress st.content && Kind.ofContent st.content == .computation
          then [Problem.operandForm] else []) = []
          ↔ (opensAddress st.content = true → Kind.ofContent st.content ≠ .computation) := by
        simp
      simp only [hform, Option.toList_none, List.append_nil]
      tauto
    | some name =>
      have hkind : Kind.ofContent st.content ≠ .computation := by
        rw [ofContent_eq_symbol.2 ⟨name, usedName?_eq_some.1 hname⟩]
        decide
      rw [Option.toList_some, card_unknowns_concat]
      dsimp only
      split
      · -- a name that is not new takes no address
        simp [hkind]
      · have hlast : (if largestAddress < firstVariable + (unknowns known (usedNames l)).card
            then [Problem.addressTooLarge] else []) = []
            ↔ (unknowns known (usedNames l)).card + 1 ≤ 32752 := by
          rw [ite_eq_right_iff, largestAddress, firstVariable]
          simp only [reduceCtorEq, imp_false]
          omega
        have hfewer : (unknowns known (usedNames l)).card + 1 ≤ 32752 →
            (unknowns known (usedNames l)).card ≤ 32752 := by
          omega
        rw [hlast]
        tauto

/-! ## Lines -/

/-- A line is well-formed when none of the passes has a problem with it by itself. -/
theorem wellFormedLine_iff {st : Statement} :
    WellFormedLine st.content ↔ (st.label? = none → opensLabel st.content = false ∧
      (opensAddress st.content = true → Kind.ofContent st.content ≠ .computation) ∧
      encodeProblems st = []) := by
  obtain ⟨line, content⟩ := st
  constructor
  · intro h hlabel
    dsimp only at h hlabel ⊢
    cases h with
    | @declaration name hsymbol =>
      have hsome : declaredLabel? _ = some name := declaredLabel?_eq_some.2 ⟨hsymbol, rfl⟩
      rw [Statement.label?, hsome] at hlabel
      simp at hlabel
    | symbol hsymbol =>
      have hkind := ofContent_eq_symbol.2 ⟨_, hsymbol, rfl⟩
      refine ⟨rfl, fun _ => by rw [hkind]; decide, ?_⟩
      simp only [encodeProblems, hkind]
    | constant hnum hsmall =>
      have hkind := ofContent_eq_constant.2 ⟨_, hnum, rfl⟩
      refine ⟨rfl, fun _ => by rw [hkind]; decide, ?_⟩
      simp only [encodeProblems, hkind, List.drop_succ_cons, List.drop_zero]
      rw [if_neg (Nat.not_lt.2 hsmall)]
    | computation hform =>
      obtain ⟨b, rest, rfl, hb⟩ := hform.head
      have hne : ∀ mark, Byte.isField mark = false → b ≠ mark := by
        rintro mark hmark rfl
        rw [hb] at hmark
        exact absurd hmark (by decide)
      have haddress : opensAddress (b :: rest) = false := by
        simpa [opensAddress] using hne Byte.atSign (by decide)
      refine ⟨by simpa [opensLabel] using hne Byte.openParen (by decide), ?_, ?_⟩
      · rw [haddress]
        simp
      · rw [encodeProblems, ofContent_eq_computation haddress]
        exact Computation.problems_eq_nil.2 hform
  · intro h
    dsimp only at h ⊢
    cases hlabel : declaredLabel? content with
    | some name =>
      obtain ⟨hsymbol, rfl⟩ := declaredLabel?_eq_some.1 hlabel
      exact .declaration hsymbol
    | none =>
      obtain ⟨-, haddress, hproblems⟩ := h hlabel
      cases hkind : Kind.ofContent content with
      | symbol =>
        obtain ⟨name, hsymbol, rfl⟩ := ofContent_eq_symbol.1 hkind
        exact .symbol hsymbol
      | constant =>
        obtain ⟨digits, hnum, rfl⟩ := ofContent_eq_constant.1 hkind
        simp only [encodeProblems, hkind] at hproblems
        refine .constant hnum (Nat.le_of_not_lt fun hlarge => ?_)
        rw [if_pos (by simpa using hlarge)] at hproblems
        exact absurd hproblems (by simp)
      | computation =>
        simp only [encodeProblems, hkind] at hproblems
        exact .computation (Computation.problems_eq_nil.1 hproblems)

/-! ## Programs -/

/-- **No pass has a problem** with a program exactly when it is well-formed. -/
theorem wellFormed_iff {p : Program} :
    p.WellFormed ↔
      p.gatherDiagnostics = [] ∧ p.resolveDiagnostics = [] ∧ p.encodeDiagnostics = [] := by
  have hgather : p.gatherDiagnostics = [] ↔ (∀ (i : Nat) (h : i < p.length),
      (∃ name, Declares p[i].content name) → (instructions (p.take i)).length ≤ 32767) ∧
      ∀ st ∈ p, st.label? = none → opensLabel st.content = false := by
    rw [gatherDiagnostics, along_eq_nil_iff]
    simp only [List.map_eq_nil_iff, gatherProblems_eq_nil, List.forall_mem_iff_getElem,
      forall_and]
  have hencode : p.encodeDiagnostics = [] ↔ ∀ st ∈ p.instructions, encodeProblems st = [] := by
    simp only [encodeDiagnostics, List.flatMap_eq_nil_iff, List.map_eq_nil_iff]
  have hinstruction : ∀ {q : Statement → Prop},
      (∀ st ∈ p.instructions, q st) ↔ ∀ st ∈ p, st.label? = none → q st := by
    intro q
    simp only [instructions, List.mem_filter, and_imp, Option.isNone_iff_eq_none]
  rw [hgather, resolveDiagnostics, along_resolveProblems_eq_nil, hencode, ← uses,
    card_unknowns_le_iff, hinstruction, hinstruction]
  constructor
  · intro h
    have hline : ∀ st ∈ p, _ := fun st hst => wellFormedLine_iff.1 (h.lines st hst)
    exact ⟨⟨h.labels, fun st hst hlabel => (hline st hst hlabel).1⟩,
      ⟨fun st hst hlabel => (hline st hst hlabel).2.1, h.room⟩,
      fun st hst hlabel => (hline st hst hlabel).2.2⟩
  · rintro ⟨⟨hlabels, hopens⟩, ⟨haddress, hroom⟩, hproblems⟩
    refine ⟨fun st hst => wellFormedLine_iff.2 fun hlabel => ?_, hlabels, hroom⟩
    exact ⟨hopens st hst hlabel, haddress st hst hlabel, hproblems st hst hlabel⟩

end Program

/-! ## Runs -/

open Program

/-- A strict run succeeds exactly when no pass has a problem with the program. -/
theorem strict_run_ok_iff (s : Bytes) {b₀ : Assembler} (hb : b₀.mode = .strict) :
    (∃ b, (assemble { bytes := s, failure := none }).run b₀ = .ok () b) ↔
      (ofText s).gatherDiagnostics = [] ∧ (ofText s).resolveDiagnostics = [] ∧
        (ofText s).encodeDiagnostics = [] := by
  constructor
  · rintro ⟨b, hrun⟩
    obtain ⟨a, ha, hnone, -⟩ := assembled_of_strict_run_ok hb hrun
    rw [ha.diagnostics, List.append_eq_nil_iff, List.append_eq_nil_iff] at hnone
    exact ⟨hnone.1.1, hnone.1.2, hnone.2⟩
  · rintro ⟨hgather, hresolve, hencode⟩
    obtain ⟨a, hrun, -⟩ := run_assemble_of_no_problem hgather hresolve hencode hb
    exact ⟨a.strictly, hrun⟩

/-- **Strict mode accepts exactly its language**: a strict run over a text succeeds if and only if
the program of the text is well-formed. -/
theorem strict_run_accepts (s : Bytes) (b₀ : Assembler) (hb : b₀.mode = .strict) :
    (∃ b, (assemble { bytes := s, failure := none }).run b₀ = .ok () b) ↔
      (ofText s).WellFormed := by
  rw [wellFormed_iff]
  exact strict_run_ok_iff s hb

/-- A label, a variable, the largest constant and a computation with more than one `;` are taken; a
`;` before the first `=` is not. -/
theorem strict_run_accepts_marks :
    (Assembler.fresh .strict).mode = .strict ∧
      (∃ b, (assemble ⟨ascii "(i)\n@x // y\n@32767\nMD = 1+D ; x = ; JMP\r0;JEQ", none⟩).run
        (.fresh .strict) = .ok () b) ∧
      ¬ ∃ b, (assemble ⟨ascii "@x\nD;M=D;JMP", none⟩).run (.fresh .strict) = .ok () b := by
  refine ⟨rfl, (strict_run_accepts _ (.fresh .strict) rfl).2 (wellFormed_iff.2 ?_), fun hrun => ?_⟩
  · decide +kernel
  · have hformed := wellFormed_iff.1 ((strict_run_accepts _ (.fresh .strict) rfl).1 hrun)
    exact absurd hformed (by decide +kernel)

end HackAssembly
