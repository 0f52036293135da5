import HackAssembly.Proofs.Gathering
import HackAssembly.Proofs.Lockstep

/-!
# What an action can do

What each action of an assembler does to the state, in either mode and whether it succeeds or not.

Reporting is all that the modes differ in, and it is also the only way for most actions to fail.  So
`Reporting a v outcome` says what an action can do that reports and then gives `v`: it records
some diagnostics, none in strict mode, or it is rejected, in strict mode only, and leaves the state
`a` as it was.  The other actions are reports with changes of the state behind them; hence what
fails in the middle has changed nothing, but for `resolveCommand`, which decides the kind of a
symbol first.

`Keeps I x` says that `x` keeps an invariant, also where it fails.  It is closed under whatever
actions are put together with, loops included.  In a loop over the commands, the command that is
visited is still the one that stands at its index (`Keeps.atEachCommand`), since a visit replaces no
other.
-/

namespace HackAssembly

open Program (wrapped toUInt16_emod)

/-- The outcome of reporting from a state, with a value to give when nothing is rejected. -/
inductive Reporting {α : Type} (a : Assembler) (v : α) (outcome : Outcome α) : Prop
  | recorded (ds : List Diagnostic) (hds : a.mode = .strict → ds = [])
    (h : outcome = .ok v (a.diagnose ds))
  | rejected (d : Diagnostic) (hmode : a.mode = .strict) (h : outcome = .error (.rejected d) a)

namespace Reporting

open Assembly

variable {α β : Type} {a : Assembler} {v : α}

protected theorem pure : Reporting a v ((pure v : Assembly α).run a) :=
  .recorded [] (fun _ => rfl) (by rw [Assembler.diagnose_nil]; rfl)

/-- What comes after a report is done in the state with the diagnostics, or not at all. -/
theorem run_bind {x : Assembly α} (h : Reporting a v (x.run a)) (f : α → Assembly β) :
    (∃ ds, (a.mode = .strict → ds = []) ∧ (x >>= f).run a = (f v).run (a.diagnose ds)) ∨
      ∃ d, a.mode = .strict ∧ (x >>= f).run a = .error (.rejected d) a := by
  cases h with
  | recorded ds hds h => exact Or.inl ⟨ds, hds, run_bind_of_ok h f⟩
  | rejected d hmode h => exact Or.inr ⟨d, hmode, run_bind_of_error h f⟩

theorem bind_pure {x : Assembly α} (h : Reporting a v (x.run a)) (w : β) :
    Reporting a w ((x >>= fun _ => pure w).run a) := by
  obtain ⟨ds, hds, hrun⟩ | ⟨d, hmode, hrun⟩ := h.run_bind fun _ => pure w
  · exact .recorded ds hds hrun
  · exact .rejected d hmode hrun

end Reporting

namespace Assembly

variable (a : Assembler)

theorem report_outcome (line : Int) (content : Bytes) (problem : Problem) :
    Reporting a () ((report line content problem).run a) := by
  cases hmode : a.mode with
  | lenient => exact .recorded _ (by simp [hmode]) (run_report hmode line content problem)
  | strict => exact .rejected _ hmode (report_strict hmode line content problem)

theorem reportAll_outcome (line : Int) (content : Bytes) (problems : List Problem) :
    Reporting a () ((reportAll line content problems).run a) := by
  rw [reportAll]
  induction problems generalizing a with
  | nil => exact Reporting.pure
  | cons problem rest ih =>
    rw [List.forM_eq_forM, List.forM_cons, ← List.forM_eq_forM]
    obtain ⟨ds, hds, hrun⟩ | ⟨d, hmode, hrun⟩ :=
      (report_outcome a line content problem).run_bind _
    · rw [hrun]
      cases ih (a.diagnose ds) with
      | recorded es hes h =>
        refine .recorded (ds ++ es) (fun hmode => ?_) (by rw [h, Assembler.diagnose_append])
        rw [hds hmode, hes hmode, List.append_nil]
      | rejected d hmode h =>
        rw [hds hmode, Assembler.diagnose_nil] at h ⊢
        exact .rejected d hmode h
    · exact .rejected d hmode hrun

theorem checkAddress_outcome (line : Int) (content : Bytes) (n : Nat) :
    Reporting a (wrapped n) ((checkAddress line content n).run a) := by
  rw [checkAddress, ← toUInt16_emod]
  split
  · exact (report_outcome a line content .addressTooLarge).bind_pure _
  · exact Reporting.pure

/-! ## The first pass -/

theorem declareLabel_outcome (content label : Bytes) :
    (∃ ds, (a.mode = .strict → ds = []) ∧ (declareLabel content label).run a = .ok ()
      { a.diagnose ds with
        table := a.table.insert label (wrapped a.nextInstruction)
        trace := a.trace.push (.labelBound label a.nextInstruction) }) ∨
      ∃ d, a.mode = .strict ∧ (declareLabel content label).run a = .error (.rejected d) a := by
  rw [declareLabel, run_bind_of_ok (EStateM.run_get a), run_bind_of_ok (EStateM.run_get a)]
  exact (checkAddress_outcome a a.line content a.nextInstruction).run_bind _

theorem addCommand_outcome (content : Bytes) :
    (∃ ds, (a.mode = .strict → ds = []) ∧ (addCommand content).run a = .ok ()
      { a.diagnose ds with
        commands := a.commands.push { line := a.line, content }
        nextInstruction := a.nextInstruction + 1 }) ∨
      ∃ d, a.mode = .strict ∧ (addCommand content).run a = .error (.rejected d) a := by
  rw [addCommand]
  split
  · rw [run_bind_of_ok (EStateM.run_get a)]
    exact (report_outcome a a.line content .labelForm).run_bind _
  · refine Or.inl ⟨[], fun _ => rfl, ?_⟩
    rw [Assembler.diagnose_nil]
    rfl

/-- Taking a line in does not count it, and a line is not taken in at all when it is rejected. -/
theorem gatherContent_outcome (content : Bytes) :
    (∃ b, (gatherContent content).run a = .ok () b ∧ b.line = a.line) ∨
      ∃ d, a.mode = .strict ∧ (gatherContent content).run a = .error (.rejected d) a := by
  rw [gatherContent]
  split
  · exact Or.inl ⟨a, rfl, rfl⟩
  · split
    · next label _ =>
      obtain ⟨ds, -, hrun⟩ | hrejected := declareLabel_outcome a content label
      · exact Or.inl ⟨_, hrun, rfl⟩
      · exact Or.inr hrejected
    · obtain ⟨ds, -, hrun⟩ | hrejected := addCommand_outcome a content
      · exact Or.inl ⟨_, hrun, rfl⟩
      · exact Or.inr hrejected

/-! ## The second pass -/

theorem allocate_outcome (line : Int) (content name : Bytes) :
    (a.table.contains name = true ∧ (allocate line content name).run a = .ok () a) ∨
      (∃ ds, (a.mode = .strict → ds = []) ∧ a.table.contains name = false ∧
        (allocate line content name).run a = .ok ()
          { a.diagnose ds with
            table := a.table.insert name (wrapped a.nextVariable)
            trace := a.trace.push (.variableAllocated name a.nextVariable)
            nextVariable := a.nextVariable + 1 }) ∨
      ∃ d, a.mode = .strict ∧ (allocate line content name).run a = .error (.rejected d) a := by
  rw [allocate, run_bind_of_ok (EStateM.run_get a)]
  cases hname : a.table.contains name with
  | true => exact Or.inl ⟨rfl, rfl⟩
  | false =>
    rw [if_neg (by simp), run_bind_of_ok (EStateM.run_get a)]
    obtain ⟨ds, hds, hrun⟩ | hrejected :=
      (checkAddress_outcome a line content a.nextVariable).run_bind _
    · exact Or.inr (Or.inl ⟨ds, hds, rfl, hrun⟩)
    · exact Or.inr (Or.inr hrejected)

/-! ## The third pass -/

/-- What is encoded is the word of an instruction. -/
theorem encodeContent_outcome (kind : Kind) (line : Int) (content : Bytes) :
    (∃ i : Instruction, Reporting a i.encode ((encodeContent kind line content).run a)) ∨
      (encodeContent kind line content).run a
        = .error (.undefinedSymbol line (content.drop 1)) a := by
  cases kind with
  | constant =>
    rw [encodeContent]
    refine Or.inl ⟨.address ((Constant.read (content.drop 1)).1.toBitVec.setWidth 15), ?_⟩
    dsimp only
    split
    · exact (report_outcome a line content .constantTooLarge).bind_pure _
    · exact Reporting.pure
  | symbol =>
    rw [encodeContent, run_bind_of_ok (EStateM.run_get a)]
    cases a.table.address? (content.drop 1) with
    | none => exact Or.inr rfl
    | some address => exact Or.inl ⟨.address (address.toBitVec.setWidth 15), Reporting.pure⟩
  | computation =>
    rw [encodeContent]
    refine Or.inl ⟨Computation.instruction content, ?_⟩
    exact (reportAll_outcome a line content (Computation.problems content)).bind_pure _

end Assembly

/-! ## Invariants -/

/-- An action that keeps an invariant of the state, also where it fails. -/
def Keeps {α : Type} (I : Assembler → Prop) (x : Assembly α) : Prop :=
  ∀ a, I a → I (Outcome.state (x.run a))

namespace Keeps

open Assembly

variable {α β : Type} {I : Assembler → Prop}

protected theorem pure (v : α) : Keeps I (pure v : Assembly α) := fun _ ha => ha

protected theorem throw (fault : Fault) : Keeps I (throw fault : Assembly α) := fun _ ha => ha

theorem get_bind {k : Assembler → Assembly β} (hk : ∀ a, Keeps I (k a)) : Keeps I (get >>= k) :=
  fun a ha => hk a a ha

protected theorem bind {x : Assembly α} {f : α → Assembly β} (hx : Keeps I x)
    (hf : ∀ v, Keeps I (f v)) : Keeps I (x >>= f) := by
  intro a ha
  have hstate := hx a ha
  cases hrun : x.run a with
  | error fault b =>
    rw [run_bind_of_error hrun]
    rw [hrun] at hstate
    exact hstate
  | ok v b =>
    rw [run_bind_of_ok hrun]
    rw [hrun] at hstate
    exact hf v b hstate

protected theorem forM {f : β → Assembly Unit} (hf : ∀ v, Keeps I (f v)) (l : List β) :
    Keeps I (l.forM f) := by
  induction l with
  | nil => exact Keeps.pure ()
  | cons x l ih =>
    rw [List.forM_eq_forM, List.forM_cons]
    exact Keeps.bind (hf x) fun _ => ih

/-- **A loop over the commands** keeps what each visit keeps, when a visit replaces no command but
the one that it visits. -/
protected theorem atEachCommand {visit : Nat → Command → Assembly Unit}
    (step : ∀ before command after a, I a → a.commands.toList = before ++ command :: after →
      I (Outcome.state ((visit before.length command).run a)) ∧
        ∀ b, (visit before.length command).run a = .ok () b →
          ∃ other, b.commands.toList = before ++ other :: after) :
    Keeps I (atEachCommand visit) := by
  have loop : ∀ (later before : List Command) (a : Assembler), I a →
      a.commands.toList = before ++ later →
      I (Outcome.state (((later.zipIdx before.length).forM fun x => visit x.2 x.1).run a)) := by
    intro later
    induction later with
    | nil =>
      intro _ a ha _
      exact ha
    | cons command later ih =>
      intro before a ha hcommands
      obtain ⟨hstate, hrest⟩ := step before command later a ha hcommands
      rw [List.zipIdx_cons, List.forM_eq_forM, List.forM_cons, ← List.forM_eq_forM]
      dsimp only
      cases hrun : (visit before.length command).run a with
      | error fault b =>
        rw [run_bind_of_error hrun]
        rw [hrun] at hstate
        exact hstate
      | ok _ b =>
        rw [run_bind_of_ok hrun]
        rw [hrun] at hstate
        obtain ⟨other, hother⟩ := hrest b hrun
        have hnext := ih (before ++ [other]) b hstate (by rw [hother]; simp)
        rwa [List.length_append, List.length_singleton] at hnext
  intro a ha
  rw [Assembly.atEachCommand, run_bind_of_ok (EStateM.run_get a)]
  exact loop a.commands.toList [] a ha rfl

/-- The first pass goes through the lines of some texts. -/
protected theorem gather (hline : ∀ line, Keeps I (gatherLine line)) (source : Source) :
    Keeps I (gather source) := by
  have htext : ∀ text, Keeps I (gatherText text) := fun text => Keeps.forM hline (lines text)
  refine Keeps.bind (Keeps.forM htext _) fun _ => ?_
  split
  · exact htext _
  · exact get_bind fun _ => Keeps.throw _

/-- A whole run is a fresh start and the three passes, with notes between them. -/
protected theorem assemble (hreset : Keeps I reset) (hnote : ∀ event, Keeps I (note event))
    {source : Source} (hgather : Keeps I (gather source)) (hresolve : Keeps I resolve)
    (hencode : Keeps I encode) : Keeps I (assemble source) := by
  have hfirst : Keeps I (firstPass source) :=
    Keeps.bind hgather fun _ => get_bind fun _ => hnote _
  have hsecond : Keeps I (secondPass source) :=
    Keeps.bind hfirst fun _ => Keeps.bind hresolve fun _ => get_bind fun _ => hnote _
  have hthird : Keeps I (thirdPass source) :=
    Keeps.bind hsecond fun _ => Keeps.bind hencode fun _ => get_bind fun _ => hnote _
  exact Keeps.bind hreset fun _ => hthird

end Keeps

end HackAssembly
