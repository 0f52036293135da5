import HackAssembly.Proofs.CanonicalText
import HackAssembly.Proofs.Lockstep
import HackAssembly.Proofs.Translation
import HackAssembly.Proofs.WordFile

/-!
# Canonical programs

A canonical program has nothing but canonical texts of instructions on its lines.  It declares no
label, uses no symbol and has no problem in any of the three passes, and its machine instructions
are the ones it spells.  So a strict run over it succeeds, leaves the table as it was and gives the
words of those instructions (`run_assemble_canonical`).

The strict run is not looked at by itself: a lenient run is known from the program
(`run_assemble`), and where that records no diagnostic, the strict run is the same one.
-/

namespace HackAssembly

open Assembly

/-- A program whose statements are the canonical texts of some instructions, in order. -/
def Program.Spells (p : Program) (is : List Instruction) : Prop :=
  p.map Statement.content = is.map Instruction.render

namespace Program

/-- **A canonical text means its instruction**, in whatever program it stands. -/
theorem instruction_render (p : Program) (i : Instruction) : p.instruction i.render = i := by
  cases i with
  | address value =>
    rw [instruction, ofContent_render_address]
    dsimp only
    rw [value_operand_render, BitVec.ofNat_toNat, BitVec.setWidth_eq]
  | compute comp dest jump =>
    rw [instruction, ofContent_render_compute]
    exact Computation.instruction_render comp dest jump

theorem spells_ofText (is : List Instruction) :
    (ofText (unlines (is.map Instruction.render))).Spells is := by
  have hunbroken : ∀ l ∈ is.map Instruction.render, Unbroken l :=
    List.forall_mem_map.2 fun i _ => unbroken_render i
  have hsame : (is.map Instruction.render).map normalise = is.map Instruction.render := by
    rw [List.map_map]
    exact List.map_congr_left fun i _ => normalise_render i
  rw [Spells, ofText, lines_unlines hunbroken, content_ofLines, hsame, List.filter_eq_self,
    List.forall_mem_map]
  intro i _
  simpa using render_ne_nil i

theorem along_eq_nil {α β : Type} {f : List α → α → List β} {l : List α}
    (h : ∀ earlier, ∀ x ∈ l, f earlier x = []) : along f l = [] := by
  rw [along, List.flatMap_eq_nil_iff]
  rintro ⟨x, i⟩ hx
  exact h _ x (List.fst_mem_of_mem_zipIdx hx)

namespace Spells

variable {p : Program} {is : List Instruction}

theorem exists_render (h : p.Spells is) {st : Statement} (hst : st ∈ p) :
    ∃ i : Instruction, st.content = i.render := by
  have hmem : st.content ∈ is.map Instruction.render := h ▸ List.mem_map_of_mem hst
  obtain ⟨i, -, hi⟩ := List.mem_map.1 hmem
  exact ⟨i, hi.symm⟩

/-! ## Neither labels nor symbols -/

theorem label?_eq_none (h : p.Spells is) {st : Statement} (hst : st ∈ p) : st.label? = none := by
  obtain ⟨i, hi⟩ := h.exists_render hst
  rw [Statement.label?, hi]
  exact declaredLabel?_eq_none (opensLabel_render i)

theorem usedName?_eq_none (h : p.Spells is) {st : Statement} (hst : st ∈ p) :
    usedName? st.content = none := by
  obtain ⟨i, hi⟩ := h.exists_render hst
  apply usedName?_of_ne_symbol
  rw [hi]
  cases i with
  | address value => rw [ofContent_render_address]; decide
  | compute comp dest jump => rw [ofContent_render_compute]; decide

theorem instructions_eq (h : p.Spells is) : p.instructions = p := by
  rw [instructions, List.filter_eq_self]
  intro st hst
  rw [h.label?_eq_none hst]
  rfl

theorem labelAddress?_eq_none (h : p.Spells is) (name : Bytes) : p.labelAddress? name = none := by
  have hnone : p.upToLabel name = [] := by
    rw [upToLabel, List.rdropWhile_eq_nil_iff]
    intro st hst
    rw [h.label?_eq_none hst]
    rfl
  rw [labelAddress?, if_pos hnone]

theorem uses_eq_nil (h : p.Spells is) : p.uses = [] := by
  rw [uses, h.instructions_eq, usedNames, List.filterMap_eq_nil_iff]
  exact fun st hst => h.usedName?_eq_none hst

theorem instruction_map (h : p.Spells is) : (p.map fun st => p.instruction st.content) = is := by
  have hcontents : p.map (fun st => p.instruction st.content)
      = (p.map Statement.content).map p.instruction := by rw [List.map_map]; rfl
  rw [hcontents, h, List.map_map]
  refine (List.map_congr_left fun i _ => ?_).trans (List.map_id is)
  exact p.instruction_render i

/-- No name is bound beyond the predefined ones. -/
theorem predefined_address?_eq (h : p.Spells is) (name : Bytes) :
    (if p.isKnown name || p.uses.contains name then some (wrapped (p.address name)) else none)
      = SymbolTable.predefined.address? name := by
  rw [h.uses_eq_nil, isKnown, address, h.labelAddress?_eq_none, SymbolTable.contains_eq_isSome]
  cases hname : SymbolTable.predefined.address? name with
  | none => rfl
  | some address => exact congrArg some (wrapped_predefined hname)

/-! ## No problems -/

theorem gatherDiagnostics_eq_nil (h : p.Spells is) : p.gatherDiagnostics = [] := by
  refine along_eq_nil fun earlier st hst => ?_
  obtain ⟨i, hi⟩ := h.exists_render hst
  rw [gatherProblems, h.label?_eq_none hst, hi, opensLabel_render]
  rfl

theorem resolveDiagnostics_eq_nil (h : p.Spells is) : p.resolveDiagnostics = [] := by
  rw [resolveDiagnostics, h.instructions_eq]
  refine along_eq_nil fun earlier st hst => ?_
  obtain ⟨i, hi⟩ := h.exists_render hst
  rw [resolveProblems, h.usedName?_eq_none hst, hi]
  cases i with
  | address value =>
    rw [ofContent_render_address, Bool.and_comm]
    rfl
  | compute comp dest jump =>
    rw [opensAddress_render_compute]
    rfl

theorem encodeDiagnostics_eq_nil (h : p.Spells is) : p.encodeDiagnostics = [] := by
  rw [encodeDiagnostics, h.instructions_eq, List.flatMap_eq_nil_iff]
  intro st hst
  obtain ⟨i, hi⟩ := h.exists_render hst
  rw [encodeProblems, hi]
  cases i with
  | address value =>
    -- fifteen bits are never too large
    have hsmall : ¬ largestAddress < value.toNat := by
      have hlt := value.isLt
      rw [largestAddress]
      omega
    rw [ofContent_render_address]
    dsimp only
    rw [value_operand_render, if_neg hsmall]
    rfl
  | compute comp dest jump =>
    rw [ofContent_render_compute]
    dsimp only
    rw [Computation.problems_render]
    rfl

end Spells

end Program

/-! ## Runs -/

open Program

theorem Assembled.codes_eq_digits {p : Program} {a : Assembler} (h : Assembled p a) :
    a.codes = (p.instructions.map fun st => p.instruction st.content).map Instruction.digits := by
  rw [h.codes, List.map_map]
  exact List.map_congr_left fun st _ => digits_eq_render p st.content

/-- A strict run that succeeds is a lenient run without problems. -/
theorem assembled_of_strict_run_ok {s : Bytes} {b₀ b : Assembler} (hb : b₀.mode = .strict)
    (h : (assemble { bytes := s, failure := none }).run b₀ = .ok () b) :
    ∃ a, Assembled (ofText s) a ∧ a.diagnostics.toList = [] ∧ b = a.strictly := by
  have hmode : (Assembler.fresh .lenient).mode = .lenient := rfl
  obtain ⟨a, hrun, -, ha⟩ := run_assemble s hmode
  rw [run_assemble_eq, hb] at h
  rw [run_assemble_eq] at hrun
  obtain ⟨hsame, hnone⟩ := (Lockstep.thirdPass _).eq_strictly_of_ok hmode hrun h
  exact ⟨a, ha, hnone, hsame⟩

/-- A strict run over a text without problems does what a lenient run does. -/
theorem run_assemble_of_no_problem {s : Bytes} (hgather : (ofText s).gatherDiagnostics = [])
    (hresolve : (ofText s).resolveDiagnostics = []) (hencode : (ofText s).encodeDiagnostics = [])
    {b₀ : Assembler} (hb : b₀.mode = .strict) :
    ∃ a, (assemble { bytes := s, failure := none }).run b₀ = .ok () a.strictly ∧
      Assembled (ofText s) a := by
  have hmode : (Assembler.fresh .lenient).mode = .lenient := rfl
  obtain ⟨a, hrun, -, ha⟩ := run_assemble s hmode
  have hnone : a.diagnostics.toList = [] := by
    rw [ha.diagnostics, hgather, hresolve, hencode]
    rfl
  rw [run_assemble_eq] at hrun
  rw [run_assemble_eq, hb]
  exact ⟨a, (Lockstep.thirdPass _).run_strictly hmode hrun hnone, ha⟩

/-- **A canonical program is assembled** in strict mode, to the words of its instructions. -/
theorem run_assemble_canonical (is : List Instruction) {b₀ : Assembler} (hb : b₀.mode = .strict) :
    ∃ b, (assemble { bytes := unlines (is.map Instruction.render), failure := none }).run b₀
        = .ok () b ∧ b.codes = is.map Instruction.digits ∧ b.table = .predefined ∧
      b.diagnostics = #[] := by
  have hp := spells_ofText is
  obtain ⟨a, hrun, ha⟩ := run_assemble_of_no_problem hp.gatherDiagnostics_eq_nil
    hp.resolveDiagnostics_eq_nil hp.encodeDiagnostics_eq_nil hb
  refine ⟨a.strictly, hrun, ?_, ?_, ?_⟩
  · exact ha.codes_eq_digits.trans (by rw [hp.instructions_eq, hp.instruction_map])
  · apply SymbolTable.ext_address?
    intro name
    exact (ha.table name).trans (hp.predefined_address?_eq name)
  · apply Array.toList_inj.1
    refine ha.diagnostics.trans ?_
    rw [hp.gatherDiagnostics_eq_nil, hp.resolveDiagnostics_eq_nil, hp.encodeDiagnostics_eq_nil]
    rfl

end HackAssembly
