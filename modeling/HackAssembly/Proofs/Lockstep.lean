import HackAssembly.Proofs.Run

/-!
# Strict and lenient mode in lock step

The two modes differ only in `report`.  So a strict run does the same as a lenient one from the same
state until the lenient one records a diagnostic; there it stops, and that diagnostic is its fault.

`Lockstep x` says this of one action: beside a lenient run of `x`, the strict one is either the same
run in the other mode, when nothing was recorded, or ends with the first diagnostic that was
(`Beside`).  It holds of reporting, of every action that neither looks at the mode nor touches the
diagnostics, and of whatever is put together from such actions, loops included.  Hence it holds of
the three passes, and a whole run starts without any diagnostic.

A lenient run goes on behind its first diagnostic, and what it does there does not matter: it only
adds diagnostics at the end.
-/

namespace HackAssembly

open Assembly

/-! ## Outcomes -/

abbrev Outcome (α : Type) := EStateM.Result Fault Assembler α

/-- The state in which an action ended, whether it succeeded or not. -/
def Outcome.state {α : Type} : Outcome α → Assembler
  | .ok _ a => a
  | .error _ a => a

def Assembler.strictly (a : Assembler) : Assembler := { a with mode := .strict }

def Outcome.strictly {α : Type} : Outcome α → Outcome α
  | .ok v a => .ok v a.strictly
  | .error fault a => .error fault a.strictly

theorem Outcome.diagnostics_strictly {α : Type} (outcome : Outcome α) :
    outcome.strictly.state.diagnostics = outcome.state.diagnostics := by
  cases outcome <;> rfl

/-- How a strict outcome stands beside a lenient one, when both started with some diagnostics. -/
inductive Beside {α : Type} (before : List Diagnostic) (lenient strict : Outcome α) : Prop
  | silent (hnone : lenient.state.diagnostics.toList = before) (hsame : strict = lenient.strictly)
  /-- The first diagnostic that was recorded ended the strict run. -/
  | reported (d : Diagnostic) (later : List Diagnostic) (b : Assembler)
    (hfirst : lenient.state.diagnostics.toList = before ++ d :: later)
    (hstop : strict = .error (.rejected d) b) (hb : b.diagnostics.toList = before)

/-- An action that runs in strict mode as in lenient mode up to the first diagnostic. -/
def Lockstep {α : Type} (x : Assembly α) : Prop :=
  ∀ a : Assembler, a.mode = .lenient → (Outcome.state (x.run a)).mode = .lenient ∧
    Beside a.diagnostics.toList (x.run a) (x.run a.strictly)

namespace Lockstep

variable {α β : Type}

/-! ## Single actions -/

protected theorem pure (v : α) : Lockstep (pure v : Assembly α) :=
  fun _ ha => ⟨ha, .silent rfl rfl⟩

protected theorem throw (fault : Fault) : Lockstep (throw fault : Assembly α) :=
  fun _ ha => ⟨ha, .silent rfl rfl⟩

protected theorem modify {f : Assembler → Assembler}
    (hstrictly : ∀ a, f a.strictly = (f a).strictly)
    (hmode : ∀ a, (f a).mode = a.mode) (hdiagnostics : ∀ a, (f a).diagnostics = a.diagnostics) :
    Lockstep (modify f : Assembly Unit) := by
  intro a ha
  refine ⟨(hmode a).trans ha, .silent (congrArg Array.toList (hdiagnostics a)) ?_⟩
  exact congrArg (EStateM.Result.ok ()) (hstrictly a)

/-- What an action does may depend on all of the state but the mode. -/
theorem get_bind {k : Assembler → Assembly β} (hstrictly : ∀ a, k a.strictly = k a)
    (hk : ∀ a, Lockstep (k a)) : Lockstep (get >>= k) := by
  intro a ha
  have hrun : ∀ b : Assembler, (get >>= k).run b = (k b).run b := fun _ => rfl
  rw [hrun, hrun, hstrictly]
  exact hk a a ha

/-- **Reporting** is where the modes part. -/
protected theorem report (line : Int) (content : Bytes) (problem : Problem) :
    Lockstep (report line content problem) := by
  intro a ha
  rw [run_report ha]
  refine ⟨ha, .reported { line, content, problem } [] a.strictly ?_ ?_ rfl⟩
  · exact a.diagnostics_diagnose _
  · exact report_strict rfl line content problem

/-! ## Putting actions together -/

/-- **One action after the other**: when the first one has reported, the strict run is over and the
lenient one can only add to its diagnostics. -/
protected theorem bind {x : Assembly α} {f : α → Assembly β} (hx : Lockstep x)
    (hf : ∀ v, Lockstep (f v)) :
    Lockstep (x >>= f) := by
  intro a ha
  obtain ⟨hmode, hbeside⟩ := hx a ha
  cases hrun : x.run a with
  | error fault b =>
    rw [hrun] at hmode hbeside
    rw [run_bind_of_error hrun]
    refine ⟨hmode, ?_⟩
    cases hbeside with
    | silent hnone hsame => exact .silent hnone (run_bind_of_error hsame f)
    | reported d later c hfirst hstop hc =>
      exact .reported d later c hfirst (run_bind_of_error hstop f) hc
  | ok v b =>
    rw [hrun] at hmode hbeside
    rw [run_bind_of_ok hrun]
    obtain ⟨hmode', hbeside'⟩ := hf v b hmode
    refine ⟨hmode', ?_⟩
    cases hbeside with
    | silent hnone hsame =>
      rw [run_bind_of_ok hsame, ← hnone]
      exact hbeside'
    | reported d later c hfirst hstop hc =>
      have hfirst' : b.diagnostics.toList = a.diagnostics.toList ++ d :: later := hfirst
      obtain ⟨more, hmore⟩ : ∃ more, (Outcome.state ((f v).run b)).diagnostics.toList
          = b.diagnostics.toList ++ more := by
        cases hbeside' with
        | silent hnone _ => exact ⟨[], by rw [hnone, List.append_nil]⟩
        | reported e others _ hothers _ _ => exact ⟨e :: others, hothers⟩
      refine .reported d (later ++ more) c ?_ (run_bind_of_error hstop f) hc
      rw [hmore, hfirst', List.append_assoc, List.cons_append]

protected theorem ite {c : Prop} [Decidable c] {x y : Assembly α} (hx : Lockstep x)
    (hy : Lockstep y) :
    Lockstep (if c then x else y) := by
  split
  · exact hx
  · exact hy

protected theorem forM {f : β → Assembly Unit} (hf : ∀ v, Lockstep (f v)) (l : List β) :
    Lockstep (l.forM f) := by
  induction l with
  | nil => exact Lockstep.pure ()
  | cons x l ih =>
    rw [List.forM_eq_forM, List.forM_cons]
    exact Lockstep.bind (hf x) fun _ => ih

/-! ## Runs side by side -/

section Runs

variable {x : Assembly α} {a b c : Assembler} {v u : α} {fault : Fault}

/-- Where both runs succeed, nothing was reported. -/
theorem eq_strictly_of_ok (hx : Lockstep x) (ha : a.mode = .lenient) (h : x.run a = .ok v b)
    (hstrict : x.run a.strictly = .ok u c) :
    c = b.strictly ∧ b.diagnostics.toList = a.diagnostics.toList := by
  obtain ⟨-, hbeside⟩ := hx a ha
  rw [h, hstrict] at hbeside
  cases hbeside with
  | silent hnone hsame =>
    cases hsame
    exact ⟨rfl, hnone⟩
  | reported d later b' _ hstop _ => cases hstop

/-- Where nothing was reported, the strict run succeeds as well. -/
theorem run_strictly (hx : Lockstep x) (ha : a.mode = .lenient) (h : x.run a = .ok v b)
    (hsilent : b.diagnostics.toList = a.diagnostics.toList) :
    x.run a.strictly = .ok v b.strictly := by
  obtain ⟨-, hbeside⟩ := hx a ha
  rw [h] at hbeside
  cases hbeside with
  | silent _ hsame => exact hsame
  | reported d later c hfirst _ _ =>
    have hlonger : b.diagnostics.toList = a.diagnostics.toList ++ d :: later := hfirst
    rw [hsilent] at hlonger
    simp at hlonger

/-- Where only the strict run fails, it was rejected for one of the reports. -/
theorem exists_rejected_of_error (hx : Lockstep x) (ha : a.mode = .lenient) (h : x.run a = .ok v b)
    {ds : List Diagnostic} (hds : b.diagnostics.toList = a.diagnostics.toList ++ ds)
    (hstrict : x.run a.strictly = .error fault c) : ∃ d ∈ ds, fault = .rejected d := by
  obtain ⟨-, hbeside⟩ := hx a ha
  rw [h, hstrict] at hbeside
  cases hbeside with
  | silent _ hsame => cases hsame
  | reported d later b' hfirst hstop _ =>
    have hsplit : a.diagnostics.toList ++ ds = a.diagnostics.toList ++ d :: later :=
      hds.symm.trans hfirst
    rw [List.append_cancel_left hsplit]
    exact ⟨d, List.mem_cons_self, by cases hstop; rfl⟩

end Runs

/-! ## The passes -/

theorem note (event : Event) : Lockstep (note event) :=
  Lockstep.modify (fun _ => rfl) (fun _ => rfl) fun _ => rfl

theorem bindSymbol (name : Bytes) (address : Address) : Lockstep (bindSymbol name address) :=
  Lockstep.modify (fun _ => rfl) (fun _ => rfl) fun _ => rfl

theorem setCommand (index : Nat) (command : Command) : Lockstep (setCommand index command) :=
  Lockstep.modify (fun _ => rfl) (fun _ => rfl) fun _ => rfl

theorem reportAll (line : Int) (content : Bytes) (problems : List Problem) :
    Lockstep (reportAll line content problems) :=
  Lockstep.forM (Lockstep.report line content) problems

theorem checkAddress (line : Int) (content : Bytes) (address : Int) :
    Lockstep (checkAddress line content address) :=
  Lockstep.ite (Lockstep.bind (Lockstep.report line content _) fun _ => Lockstep.pure _)
    (Lockstep.pure _)

theorem declareLabel (content label : Bytes) : Lockstep (declareLabel content label) := by
  refine get_bind (fun _ => rfl) fun a => get_bind (fun _ => rfl) fun b => ?_
  exact Lockstep.bind (checkAddress _ _ _) fun address =>
    Lockstep.bind (bindSymbol label address) fun _ => note _

theorem addCommand (content : Bytes) : Lockstep (addCommand content) := by
  have hpush : Lockstep (modify fun a : Assembler => { a with
      commands := a.commands.push { line := a.line, content }
      nextInstruction := a.nextInstruction + 1 } : Assembly Unit) :=
    Lockstep.modify (fun _ => rfl) (fun _ => rfl) fun _ => rfl
  refine Lockstep.ite ?_ hpush
  exact get_bind (fun _ => rfl) fun a =>
    Lockstep.bind (Lockstep.report _ content _) fun _ => hpush

theorem gatherLine (line : Bytes) : Lockstep (gatherLine line) := by
  refine Lockstep.bind (Lockstep.modify (fun _ => rfl) (fun _ => rfl) fun _ => rfl) fun _ => ?_
  rw [gatherContent]
  split
  · exact Lockstep.pure ()
  · split
    · exact declareLabel _ _
    · exact addCommand _

theorem gather (source : Source) : Lockstep (gather source) := by
  have htext : ∀ text, Lockstep (gatherText text) :=
    fun text => Lockstep.forM gatherLine (lines text)
  refine Lockstep.bind (Lockstep.forM htext _) fun _ => ?_
  split
  · exact htext _
  · exact get_bind (fun _ => rfl) fun _ => Lockstep.throw _

theorem visitAll {visit : Nat → Command → Assembly Unit}
    (hvisit : ∀ index command, Lockstep (visit index command)) (commands : List Command) :
    Lockstep (visitAll visit commands) :=
  Lockstep.forM (fun x : Command × Nat => hvisit x.2 x.1) _

theorem atEachCommand {visit : Nat → Command → Assembly Unit}
    (hvisit : ∀ index command, Lockstep (visit index command)) : Lockstep (atEachCommand visit) :=
  get_bind (fun _ => rfl) fun a => visitAll hvisit a.commands.toList

theorem allocate (line : Int) (content name : Bytes) : Lockstep (allocate line content name) := by
  refine get_bind (fun _ => rfl) fun a => Lockstep.ite (Lockstep.pure ()) ?_
  refine get_bind (fun _ => rfl) fun b => Lockstep.bind (checkAddress _ _ _) fun address => ?_
  refine Lockstep.bind (bindSymbol name address) fun _ => Lockstep.bind (note _) fun _ => ?_
  exact Lockstep.modify (fun _ => rfl) (fun _ => rfl) fun _ => rfl

theorem resolveCommand (index : Nat) (command : Command) :
    Lockstep (resolveCommand index command) := by
  rw [Assembly.resolveCommand]
  split
  · exact Lockstep.bind (setCommand index _) fun _ => allocate _ _ _
  · exact setCommand index _
  · exact Lockstep.ite (Lockstep.bind (Lockstep.report _ _ _) fun _ => setCommand index _)
      (setCommand index _)

theorem resolve : Lockstep resolve := atEachCommand resolveCommand

theorem encodeContent (kind : Kind) (line : Int) (content : Bytes) :
    Lockstep (encodeContent kind line content) := by
  cases kind with
  | constant =>
    exact Lockstep.ite (Lockstep.bind (Lockstep.report _ _ _) fun _ => Lockstep.pure _)
      (Lockstep.pure _)
  | symbol =>
    refine get_bind (fun _ => rfl) fun a => ?_
    split
    · exact Lockstep.pure _
    · exact Lockstep.throw _
  | computation => exact Lockstep.bind (reportAll _ _ _) fun _ => Lockstep.pure _

theorem encodeCommand (index : Nat) (command : Command) :
    Lockstep (encodeCommand index command) :=
  Lockstep.bind (encodeContent _ _ _) fun _ => setCommand index _

theorem encode : Lockstep encode := atEachCommand encodeCommand

end Lockstep

/-! ## Whole runs -/

theorem Lockstep.firstPass (source : Source) : Lockstep (firstPass source) :=
  Lockstep.bind (gather source) fun _ => get_bind (fun _ => rfl) fun _ => note _

theorem Lockstep.secondPass (source : Source) : Lockstep (secondPass source) :=
  Lockstep.bind (firstPass source) fun _ => Lockstep.bind resolve fun _ =>
    get_bind (fun _ => rfl) fun _ => note _

theorem Lockstep.thirdPass (source : Source) : Lockstep (thirdPass source) :=
  Lockstep.bind (secondPass source) fun _ => Lockstep.bind encode fun _ =>
    get_bind (fun _ => rfl) fun _ => note _

/-- Beside a lenient run, from whatever states the two assemblers start. -/
theorem beside_assemble (source : Source) {a b : Assembler} (ha : a.mode = .lenient)
    (hb : b.mode = .strict) : Beside [] ((assemble source).run a) ((assemble source).run b) := by
  rw [run_assemble_eq, run_assemble_eq, ha, hb]
  exact (Lockstep.thirdPass source (.fresh .lenient) rfl).2

/-- **Strict mode agrees with lenient mode up to the first diagnostic.**  When the lenient run
records none, the strict one ends the same way in the same state but for the mode.  Otherwise the
strict run is rejected with the first diagnostic of the lenient one.  In neither case does it record
any itself. -/
theorem strict_run_agrees (source : Source) (a b : Assembler) (ha : a.mode = .lenient)
    (hb : b.mode = .strict) :
    ((Outcome.state ((assemble source).run a)).diagnostics.toList = [] →
        (assemble source).run b = Outcome.strictly ((assemble source).run a)) ∧
      (∀ d, (Outcome.state ((assemble source).run a)).diagnostics.toList.head? = some d →
        ∃ c, (assemble source).run b = .error (.rejected d) c) ∧
      (Outcome.state ((assemble source).run b)).diagnostics.toList = [] := by
  cases beside_assemble source ha hb with
  | silent hnone hsame =>
    refine ⟨fun _ => hsame, fun d hd => ?_, ?_⟩
    · rw [hnone] at hd
      simp at hd
    · rw [hsame, Outcome.diagnostics_strictly, hnone]
  | reported d later c hfirst hstop hc =>
    refine ⟨fun hnone => ?_, fun e he => ?_, ?_⟩
    · rw [hnone] at hfirst
      simp at hfirst
    · rw [hfirst] at he
      obtain rfl : d = e := by simpa using he
      exact ⟨c, hstop⟩
    · rw [hstop]
      exact hc

/-- The first pass comes first, even when the second one reports an earlier line; and a source that
breaks off does not hide what was reported before. -/
theorem strict_run_agrees_pass_order :
    (Assembler.fresh .lenient).mode = .lenient ∧ (Assembler.fresh .strict).mode = .strict ∧
      (∃ c, (assemble ⟨ascii "@1x\n(L", none⟩).run (.fresh .strict)
        = .error (.rejected ⟨2, ascii "(L", .labelForm⟩) c) ∧
      ∃ c, (assemble ⟨ascii "(L\n@x", some (ascii "broken")⟩).run (.fresh .strict)
        = .error (.rejected ⟨1, ascii "(L", .labelForm⟩) c := by
  refine ⟨rfl, rfl, ?_, ?_⟩
  · exact (strict_run_agrees ⟨ascii "@1x\n(L", none⟩ (.fresh .lenient) (.fresh .strict) rfl
      rfl).2.1 _ (by decide +kernel)
  · exact (strict_run_agrees ⟨ascii "(L\n@x", some (ascii "broken")⟩ (.fresh .lenient)
      (.fresh .strict) rfl rfl).2.1 _ (by decide +kernel)

end HackAssembly
