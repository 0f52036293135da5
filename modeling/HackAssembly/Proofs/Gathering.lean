import HackAssembly.Proofs.Lines
import HackAssembly.Proofs.Program
import HackAssembly.Proofs.Run

/-!
# The first pass

Over a source that can be read to its end, the first pass is one loop over the lines of the whole
text (`gather_eq_forM`).  In lenient mode it keeps `Gathered`: the state holds exactly the program
of the lines so far, that is, its instructions, the addresses of its labels and its problems.

A label that is declared again moves, so the invariant speaks of its last declaration.  It speaks of
all names at once: a name that is no label so far still has its predefined address.
-/

namespace HackAssembly

open Assembly Program

/-- The command of an instruction before anything is known about it. -/
def Statement.gathered (st : Statement) : Command := { line := st.line, content := st.content }

/-- What the state holds when the first pass has met the statements of a program. -/
structure Gathered (p : Program) (a : Assembler) : Prop where
  mode : a.mode = .lenient
  nextInstruction : a.nextInstruction = p.instructions.length
  nextVariable : a.nextVariable = firstVariable
  table : ∀ name, a.table.address? name = p.knownAddress? name
  commands : a.commands.toList = p.instructions.map Statement.gathered
  diagnostics : a.diagnostics.toList = p.gatherDiagnostics

namespace Assembly

variable {a : Assembler}

/-- Reading chunk by chunk is reading line by line. -/
theorem gather_eq_forM (s : Bytes) :
    gather { bytes := s, failure := none } = (lines s).forM gatherLine := by
  have hchunks : ∀ complete : List Bytes,
      complete.forM gatherText = (complete.flatMap lines).forM gatherLine := by
    intro complete
    induction complete with
    | nil => rfl
    | cons c rest ih =>
      rw [List.flatMap_cons, forM_append, ← ih, List.forM_eq_forM, List.forM_cons]
      rfl
  rw [← flatMap_lines_chunks s, forM_append, ← hchunks]
  rfl

theorem run_declareLabel (h : a.mode = .lenient) (content label : Bytes) :
    (declareLabel content label).run a = .ok ()
      { a.diagnose (if largestAddress < a.nextInstruction
          then [{ line := a.line, content, problem := .addressTooLarge }] else []) with
        table := a.table.insert label (wrapped a.nextInstruction)
        trace := a.trace.push (.labelBound label a.nextInstruction) } := by
  have hcheck := run_checkAddress h a.line content a.nextInstruction
  rw [toUInt16_emod] at hcheck
  rw [declareLabel, run_bind_of_ok (EStateM.run_get a), run_bind_of_ok (EStateM.run_get a)]
  dsimp only
  rw [run_bind_of_ok hcheck]
  by_cases hlarge : largestAddress < a.nextInstruction
  · rw [if_pos hlarge, if_pos (by exact_mod_cast hlarge)]
    rfl
  · rw [if_neg hlarge, if_neg (by exact_mod_cast hlarge)]
    rfl

theorem run_addCommand (h : a.mode = .lenient) (content : Bytes) :
    (addCommand content).run a = .ok ()
      { a.diagnose (if opensLabel content
          then [{ line := a.line, content, problem := .labelForm }] else []) with
        commands := a.commands.push { line := a.line, content }
        nextInstruction := a.nextInstruction + 1 } := by
  rw [addCommand]
  split
  · rw [run_bind_of_ok (EStateM.run_get a), run_bind_of_ok (run_report h _ content .labelForm)]
    rfl
  · rw [Assembler.diagnose_nil]
    rfl

end Assembly

namespace Gathered

variable {p : Program} {a : Assembler}

theorem start : Gathered [] (.fresh .lenient) where
  mode := rfl
  nextInstruction := rfl
  nextVariable := rfl
  table := fun _ => rfl
  commands := rfl
  diagnostics := rfl

theorem declareLabel (h : Gathered p a) (st : Statement) (hline : a.line = st.line)
    {label : Bytes} (hlabel : st.label? = some label) :
    ∃ b, (declareLabel st.content label).run a = .ok () b ∧ b.line = a.line ∧
      Gathered (p ++ [st]) b := by
  refine ⟨_, run_declareLabel h.mode st.content label, rfl, h.mode, ?_, h.nextVariable, ?_, ?_, ?_⟩
  · rw [instructions_concat, hlabel]
    simpa using h.nextInstruction
  · intro name
    rw [knownAddress?_concat, SymbolTable.address?_insert, hlabel, h.nextInstruction]
    by_cases hname : label = name
    · simp [hname]
    · simpa [hname] using h.table name
  · rw [instructions_concat, hlabel]
    simpa using h.commands
  · rw [gatherDiagnostics, along_concat, ← gatherDiagnostics, gatherProblems, hlabel, hline,
      h.nextInstruction, ← h.diagnostics]
    by_cases hlarge : largestAddress < p.instructions.length
    · simp [hlarge, Statement.diagnostic]
    · simp [hlarge]

theorem addCommand (h : Gathered p a) (st : Statement) (hline : a.line = st.line)
    (hlabel : st.label? = none) :
    ∃ b, (addCommand st.content).run a = .ok () b ∧ b.line = a.line ∧ Gathered (p ++ [st]) b := by
  refine ⟨_, run_addCommand h.mode st.content, rfl, h.mode, ?_, h.nextVariable, ?_, ?_, ?_⟩
  · rw [instructions_concat, hlabel]
    simp [h.nextInstruction]
  · intro name
    rw [knownAddress?_concat, hlabel]
    simpa using h.table name
  · rw [instructions_concat, hlabel]
    simp [h.commands, Statement.gathered, hline]
  · rw [gatherDiagnostics, along_concat, ← gatherDiagnostics, gatherProblems, hlabel, hline,
      ← h.diagnostics]
    by_cases hopens : opensLabel st.content = true
    · simp [hopens, Statement.diagnostic]
    · simp [hopens]

/-- **One more line** of the first pass. -/
theorem gatherLine {ls : List Bytes} (h : Gathered (ofLines ls) a) (hline : a.line = ls.length)
    (l : Bytes) :
    ∃ b, (gatherLine l).run a = .ok () b ∧ b.line = (ls ++ [l]).length ∧
      Gathered (ofLines (ls ++ [l])) b := by
  -- counting the line touches nothing that the invariant speaks of
  have hcount : Gathered (ofLines ls) { a with line := a.line + 1 } :=
    ⟨h.mode, h.nextInstruction, h.nextVariable, h.table, h.commands, h.diagnostics⟩
  have hlength : a.line + 1 = (ls ++ [l]).length := by simp [hline]
  rw [Assembly.gatherLine, run_bind_of_ok (EStateM.run_modify _ a), gatherContent, ofLines_concat]
  by_cases hblank : normalise l = []
  · rw [if_pos hblank, if_pos (by simp [hblank]), List.append_nil]
    exact ⟨_, rfl, hlength, hcount⟩
  · rw [if_neg hblank, if_neg (by simpa using hblank)]
    have hst : a.line + 1 = ls.length + 1 := by rw [hline]
    cases hlabel : declaredLabel? (normalise l) with
    | some label =>
      obtain ⟨b, hb, hbline, hp⟩ :=
        hcount.declareLabel ⟨ls.length + 1, normalise l⟩ hst hlabel
      exact ⟨b, hb, hbline.trans hlength, hp⟩
    | none =>
      obtain ⟨b, hb, hbline, hp⟩ :=
        hcount.addCommand ⟨ls.length + 1, normalise l⟩ hst hlabel
      exact ⟨b, hb, hbline.trans hlength, hp⟩

end Gathered

/-- The first pass over some lines. -/
theorem run_gather_lines (ls : List Bytes) :
    ∃ a, (ls.forM gatherLine).run (.fresh .lenient) = .ok () a ∧ a.line = ls.length ∧
      Gathered (ofLines ls) a := by
  refine run_forM (I := fun ls a => a.line = ls.length ∧ Gathered (ofLines ls) a) ls ?_
    ⟨rfl, Gathered.start⟩
  intro earlier l _ _ a h
  exact h.2.gatherLine h.1 l

/-- **The first pass** of a lenient run gathers the program of the source. -/
theorem run_gather (s : Bytes) :
    ∃ a, (gather { bytes := s, failure := none }).run (.fresh .lenient) = .ok () a ∧
      a.line = (lines s).length ∧ Gathered (ofText s) a := by
  rw [gather_eq_forM]
  exact run_gather_lines (lines s)

end HackAssembly
