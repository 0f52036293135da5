import HackAssembly.Proofs.Interruption
import HackAssembly.Proofs.RoundTrip

/-!
# Passes after a finished run

When a run has succeeded, the second and the third pass have nothing left to do.  What they would
find out about a command depends on its line and on the table, and the table already binds every
name that the program uses.  So a further pass puts each command in its own place, and only reports.

The second pass takes another way than in the run itself, since it meets no new name any more.  It
reports what the run would have reported if all names had been known from the start: the operands
that are neither symbols nor numerals, and no address.  The third pass reports the same again.

* `Settled`: what makes further passes idle.  It says nothing about the diagnostics, so a pass keeps
  it, and any sequence of passes runs on it (`Settled.run_passes`).
* `further_passes_change_nothing`: the same of every run that succeeds, in either mode.
-/

namespace HackAssembly

open Assembly Program

/-- A pass that can be performed again after a run. -/
inductive Pass where
  | resolve
  | encode
  deriving DecidableEq

def Pass.action : Pass → Assembly Unit
  | resolve => Assembly.resolve
  | encode => Assembly.encode

/-- What a further pass reports, from what the run has reported in its second and third pass. -/
def Pass.reports (second third : List Diagnostic) : Pass → List Diagnostic
  | resolve => second.filter fun d => d.problem = .operandForm
  | encode => third

/-- The diagnostics that a run which ended in some state has recorded in its second and in its third
pass. -/
def Recorded (source : Source) (mode : Mode) (a : Assembler) (second third : List Diagnostic) :
    Prop :=
  ∃ g r, (firstPass source).run (.fresh mode) = .ok () g ∧
    (secondPass source).run (.fresh mode) = .ok () r ∧
    r.diagnostics.toList = g.diagnostics.toList ++ second ∧
    a.diagnostics.toList = r.diagnostics.toList ++ third

/-! ## What a further second pass reports -/

theorem filter_resolveProblems (known : Bytes → Bool) (earlier : List Statement) (st : Statement) :
    (resolveProblems known earlier st).filter (fun problem => problem = .operandForm)
      = resolveProblems (fun _ => true) [] st := by
  rw [resolveProblems, resolveProblems]
  cases usedName? st.content with
  | some name =>
    dsimp only
    split
    · rfl
    · split
      · rfl
      · rfl
  | none =>
    dsimp only
    split
    · rfl
    · rfl

/-- The reports of the second pass that have nothing to do with addresses. -/
theorem filter_resolveDiagnostics (p : Program) :
    p.resolveDiagnostics.filter (fun d => d.problem = .operandForm)
      = p.instructions.flatMap fun st =>
        (resolveProblems (fun _ => true) [] st).map st.diagnostic := by
  have hfilter : ∀ known earlier (st : Statement),
      ((resolveProblems known earlier st).map st.diagnostic).filter
          (fun d => d.problem = .operandForm)
        = (resolveProblems (fun _ => true) [] st).map st.diagnostic := by
    intro known earlier st
    rw [List.filter_map, ← filter_resolveProblems known earlier st]
    rfl
  rw [resolveDiagnostics]
  induction p.instructions using List.reverseRecOn with
  | nil => rfl
  | append_singleton l st ih =>
    rw [along_concat, List.filter_append, ih, hfilter, List.flatMap_append, List.flatMap_singleton]

/-! ## Loops that only report -/

theorem Assembly.run_setCommand_self {a : Assembler} {before after : List Command}
    {command : Command} (h : a.commands.toList = before ++ command :: after) :
    (setCommand before.length command).run a = .ok () a := by
  obtain ⟨commands, hrun, hset⟩ := run_setCommand h command
  obtain rfl : commands = a.commands := Array.toList_inj.1 (hset.trans h.symm)
  exact hrun

/-- A loop over the commands that leaves each of them as it is and reports something about it. -/
theorem Assembly.run_atEachCommand_of_idle {a : Assembler} (visit : Nat → Command → Assembly Unit)
    (reports : Command → List Diagnostic)
    (step : ∀ before command after, a.commands.toList = before ++ command :: after → ∀ ds,
      (visit before.length command).run (a.diagnose ds)
        = .ok () (a.diagnose (ds ++ reports command))) :
    (atEachCommand visit).run a = .ok () (a.diagnose (a.commands.toList.flatMap reports)) := by
  have hstep : ∀ earlier command later, a.commands.toList = earlier ++ command :: later → ∀ b,
      b = a.diagnose (earlier.flatMap reports) →
      b.commands.toList = earlier.map id ++ command :: later →
      ∃ c, (visit earlier.length command).run b = .ok () c ∧
        c = a.diagnose ((earlier ++ [command]).flatMap reports) ∧
        c.commands.toList = earlier.map id ++ id command :: later := by
    intro earlier command later hsplit b hb _
    refine ⟨_, ?_, rfl, ?_⟩
    · rw [hb, step earlier command later hsplit, List.flatMap_append, List.flatMap_singleton]
    · rw [List.map_id]
      exact hsplit
  obtain ⟨b, hrun, hb, -⟩ :=
    run_visitAll hstep (a.diagnose_nil).symm (List.append_nil _).symm
  rw [run_atEachCommand, hrun, hb]

/-! ## Settled states -/

/-- A state in which the commands of a program and the addresses of its names are as a run leaves
them. -/
structure Settled (p : Program) (a : Assembler) : Prop where
  mode : a.mode = .lenient
  commands : a.commands.toList = p.instructions.map p.command
  bound : ∀ name ∈ p.uses, a.table.address? name = some (wrapped (p.address name))

theorem Assembled.settled {p : Program} {a : Assembler} (h : Assembled p a) : Settled p a where
  mode := h.mode
  commands := h.commands
  bound := by
    intro name hname
    rw [h.table, if_pos (Bool.or_eq_true_iff.2 (Or.inr (List.contains_iff_mem.2 hname)))]

namespace Settled

variable {p : Program} {a : Assembler}

theorem diagnose (h : Settled p a) (ds : List Diagnostic) : Settled p (a.diagnose ds) :=
  ⟨h.mode, h.commands, h.bound⟩

/-- Each command is that of an instruction of the program. -/
theorem exists_statement (h : Settled p a) {before after : List Command} {command : Command}
    (hsplit : a.commands.toList = before ++ command :: after) :
    ∃ st ∈ p.instructions, p.command st = command := by
  rw [← List.mem_map, ← h.commands, hsplit]
  simp

/-- **One command** of a further second pass. -/
theorem resolveCommand (h : Settled p a) {st : Statement} (hst : st ∈ p.instructions)
    {before after : List Command} (hsplit : a.commands.toList = before ++ p.command st :: after) :
    (resolveCommand before.length (p.command st)).run a
      = .ok () (a.diagnose ((resolveProblems (fun _ => true) [] st).map st.diagnostic)) := by
  have hcontent : (p.command st).content = st.content := rfl
  -- the kind that is decided is the one that the command has
  have hset : ∀ (b : Assembler) kind, b.commands = a.commands → Kind.ofContent st.content = kind →
      (setCommand before.length { p.command st with kind }).run b = .ok () b := by
    rintro b kind hb rfl
    exact run_setCommand_self (hb ▸ hsplit)
  rw [Assembly.resolveCommand, resolveProblems, hcontent]
  cases hkind : Kind.ofContent st.content with
  | symbol =>
    have hname := usedName?_of_symbol hkind
    have haddress := h.bound (st.content.drop 1) (List.mem_filterMap.2 ⟨st, hst, hname⟩)
    have hcontains : a.table.contains (st.content.drop 1) = true := by
      rw [SymbolTable.contains_eq_isSome, haddress]
      rfl
    rw [hname]
    refine (run_bind_of_ok (hset a .symbol rfl hkind) _).trans ?_
    rw [run_allocate_of_contains hcontains]
    exact congrArg (EStateM.Result.ok ()) a.diagnose_nil.symm
  | constant =>
    rw [usedName?_of_ne_symbol (by simp [hkind])]
    refine (hset a .constant rfl hkind).trans ?_
    simp
  | computation =>
    rw [usedName?_of_ne_symbol (by simp [hkind])]
    dsimp only
    by_cases hopens : opensAddress st.content = true
    · rw [if_pos hopens, hopens, run_bind_of_ok (run_report h.mode _ _ _)]
      exact hset (a.diagnose _) .computation rfl hkind
    · rw [if_neg hopens]
      refine (hset a .computation rfl hkind).trans ?_
      simp [hopens]

/-- **One command** of a further third pass. -/
theorem encodeCommand (h : Settled p a) {st : Statement} (hst : st ∈ p.instructions)
    {before after : List Command} (hsplit : a.commands.toList = before ++ p.command st :: after) :
    (encodeCommand before.length (p.command st)).run a
      = .ok () (a.diagnose ((encodeProblems st).map st.diagnostic)) := by
  have hword := run_encodeContent h.mode h.bound hst
  rw [Assembly.encodeCommand]
  exact (run_bind_of_ok hword _).trans (run_setCommand_self (a := a.diagnose _) hsplit)

theorem resolve (h : Settled p a) : resolve.run a
    = .ok () (a.diagnose (p.resolveDiagnostics.filter fun d => d.problem = .operandForm)) := by
  have hloop := run_atEachCommand_of_idle (a := a) Assembly.resolveCommand
    (fun command => (resolveProblems (fun _ => true) [] command.statement).map
      command.statement.diagnostic) ?_
  · rw [Assembly.resolve, hloop, filter_resolveDiagnostics, h.commands, List.flatMap_map]
    rfl
  · intro before command after hsplit ds
    obtain ⟨st, hst, rfl⟩ := h.exists_statement hsplit
    rw [(h.diagnose ds).resolveCommand hst hsplit, Assembler.diagnose_append]
    rfl

theorem encode (h : Settled p a) : encode.run a = .ok () (a.diagnose p.encodeDiagnostics) := by
  have hloop := run_atEachCommand_of_idle (a := a) Assembly.encodeCommand
    (fun command => (encodeProblems command.statement).map command.statement.diagnostic) ?_
  · rw [Assembly.encode, hloop, encodeDiagnostics, h.commands, List.flatMap_map]
    rfl
  · intro before command after hsplit ds
    obtain ⟨st, hst, rfl⟩ := h.exists_statement hsplit
    rw [(h.diagnose ds).encodeCommand hst hsplit, Assembler.diagnose_append]
    rfl

theorem run_pass (h : Settled p a) (pass : Pass) : pass.action.run a
    = .ok () (a.diagnose (pass.reports p.resolveDiagnostics p.encodeDiagnostics)) := by
  cases pass with
  | resolve => exact h.resolve
  | encode => exact h.encode

/-- **Any sequence of passes** only reports. -/
theorem run_passes (h : Settled p a) (passes : List Pass) : (passes.forM Pass.action).run a
    = .ok () (a.diagnose
        (passes.flatMap (Pass.reports p.resolveDiagnostics p.encodeDiagnostics))) := by
  induction passes generalizing a with
  | nil => rw [List.flatMap_nil, Assembler.diagnose_nil]; rfl
  | cons pass passes ih =>
    have hrest := ih (h.diagnose (pass.reports p.resolveDiagnostics p.encodeDiagnostics))
    rw [List.forM_eq_forM] at hrest ⊢
    rw [List.forM_cons, run_bind_of_ok (h.run_pass pass), hrest, Assembler.diagnose_append,
      List.flatMap_cons]

end Settled

theorem Lockstep.passAction (pass : Pass) : Lockstep pass.action := by
  cases pass with
  | resolve => exact Lockstep.resolve
  | encode => exact Lockstep.encode

/-! ## After a run -/

theorem recorded_lenient {s : Bytes} {a : Assembler} (h : Assembled (ofText s) a) :
    Recorded { bytes := s, failure := none } .lenient a (ofText s).resolveDiagnostics
      (ofText s).encodeDiagnostics := by
  obtain ⟨g, hg, -, hgathered⟩ := run_firstPass s
  obtain ⟨r, hr, -, hresolved, -⟩ := run_secondPass s
  refine ⟨g, r, hg, hr, ?_, ?_⟩
  · rw [hresolved.diagnostics, hgathered.diagnostics]
    rfl
  · rw [h.diagnostics, hresolved.diagnostics]
    rfl

theorem Recorded.strictly {source : Source} {a : Assembler}
    (h : Recorded source .lenient a [] []) (hsilent : a.diagnostics.toList = []) :
    Recorded source .strict a.strictly [] [] := by
  obtain ⟨g, r, hg, hr, hsecond, hthird⟩ := h
  rw [List.append_nil] at hsecond hthird
  have hrsilent : r.diagnostics.toList = [] := hthird.symm.trans hsilent
  have hgsilent : g.diagnostics.toList = [] := hsecond.symm.trans hrsilent
  refine ⟨g.strictly, r.strictly, ?_, ?_, ?_, ?_⟩
  · exact (Lockstep.firstPass source).run_strictly (a := .fresh .lenient) rfl hg hgsilent
  · exact (Lockstep.secondPass source).run_strictly (a := .fresh .lenient) rfl hr hrsilent
  · rw [List.append_nil]
    exact hsecond
  · rw [List.append_nil]
    exact hthird

/-- **Further passes change nothing.**  After a run that has succeeded, any sequence of second and
third passes succeeds as well.  Each second pass reports again what the run has reported in its own
second pass, but for the addresses, and each third pass what the run has reported in its third; all
else in the state stays as it is.  In strict mode there is nothing to report. -/
theorem further_passes_change_nothing (source : Source) (a₀ a : Assembler)
    (h : (assemble source).run a₀ = .ok () a) :
    ∃ second third, Recorded source a₀.mode a second third ∧
      (∀ passes : List Pass, (passes.forM Pass.action).run a
        = .ok () (a.diagnose (passes.flatMap (Pass.reports second third)))) ∧
      (a₀.mode = .strict → a.diagnostics = #[] ∧
        ∀ passes : List Pass, (passes.forM Pass.action).run a = .ok () a) := by
  obtain ⟨s, failure⟩ := source
  obtain rfl : failure = none := by
    by_contra hfailure
    exact run_assemble_ne_ok hfailure a₀ a h
  cases hmode : a₀.mode with
  | lenient =>
    obtain ⟨c, hrun, -, hc⟩ := run_assemble s hmode
    obtain rfl : c = a := by simpa using hrun.symm.trans h
    exact ⟨_, _, recorded_lenient hc, hc.settled.run_passes, fun hstrict => by cases hstrict⟩
  | strict =>
    obtain ⟨c, hc, hsilent, rfl⟩ := assembled_of_strict_run_ok hmode h
    have hnone := hsilent
    rw [hc.diagnostics, List.append_eq_nil_iff, List.append_eq_nil_iff] at hnone
    obtain ⟨⟨-, hsecond⟩, hthird⟩ := hnone
    have hrecorded := recorded_lenient hc
    rw [hsecond, hthird] at hrecorded
    have hreports : ∀ passes : List Pass, passes.flatMap (Pass.reports [] []) = [] := by
      intro passes
      rw [List.flatMap_eq_nil_iff]
      intro pass _
      cases pass <;> rfl
    have hidle : ∀ passes : List Pass,
        (passes.forM Pass.action).run c.strictly = .ok () c.strictly := by
      intro passes
      have hrun := hc.settled.run_passes passes
      rw [hsecond, hthird, hreports, Assembler.diagnose_nil] at hrun
      exact (Lockstep.forM Lockstep.passAction passes).run_strictly hc.mode hrun rfl
    refine ⟨[], [], hrecorded.strictly hsilent, ?_, fun _ => ⟨Array.toList_inj.1 hsilent, hidle⟩⟩
    intro passes
    rw [hreports, Assembler.diagnose_nil, hidle]

/-- An operand that is neither a symbol nor a numeral is reported again by each pass, as the run has
done, and a constant that is too large by each third pass; the variable is not allocated again. -/
theorem further_passes_change_nothing_operand :
    ∃ a, (assemble ⟨ascii "@1y\n@x\n@40000", none⟩).run (.fresh .lenient) = .ok () a ∧
      ([Pass.resolve, .encode, .resolve].forM Pass.action).run a
        = .ok () (a.diagnose [⟨1, ascii "@1y", .operandForm⟩, ⟨1, ascii "@1y", .comp⟩,
            ⟨3, ascii "@40000", .constantTooLarge⟩, ⟨1, ascii "@1y", .operandForm⟩]) := by
  have hgdiagnostics : (Outcome.state ((firstPass ⟨ascii "@1y\n@x\n@40000", none⟩).run
      (.fresh .lenient))).diagnostics.toList = [] := by
    decide +kernel
  have hrdiagnostics : (Outcome.state ((secondPass ⟨ascii "@1y\n@x\n@40000", none⟩).run
      (.fresh .lenient))).diagnostics.toList = [⟨1, ascii "@1y", .operandForm⟩] := by
    decide +kernel
  have hdiagnostics : (Outcome.state ((assemble ⟨ascii "@1y\n@x\n@40000", none⟩).run
      (.fresh .lenient))).diagnostics.toList = [⟨1, ascii "@1y", .operandForm⟩,
        ⟨1, ascii "@1y", .comp⟩, ⟨3, ascii "@40000", .constantTooLarge⟩] := by
    decide +kernel
  have hmode : (Assembler.fresh .lenient).mode = .lenient := rfl
  obtain ⟨a, hrun, -⟩ := run_assemble (ascii "@1y\n@x\n@40000") hmode
  obtain ⟨second, third, ⟨g, r, hg, hr, hsecond, hthird⟩, hpasses, -⟩ :=
    further_passes_change_nothing _ _ a hrun
  rw [show (firstPass _).run (.fresh .lenient) = _ from hg, Outcome.state] at hgdiagnostics
  rw [show (secondPass _).run (.fresh .lenient) = _ from hr, Outcome.state] at hrdiagnostics
  rw [hrun, Outcome.state] at hdiagnostics
  rw [hgdiagnostics, hrdiagnostics] at hsecond
  rw [hrdiagnostics, hdiagnostics] at hthird
  obtain rfl : _ = second := hsecond
  obtain rfl : _ = third := by simpa using hthird
  exact ⟨a, hrun, hpasses [.resolve, .encode, .resolve]⟩

end HackAssembly
