import HackAssembly.Assembler
import Mathlib.Data.List.Induction

/-!
# Running an assembler

How the actions of an assembler run, one by one and in loops.

* `run_report`, `run_reportAll`, `run_checkAddress`: in lenient mode a problem is recorded and the
  run goes on.  What is recorded is written with `Assembler.diagnose`.  In strict mode the first of
  some problems ends the run (`run_reportAll_strict`).  A computation is where both matter
  (`run_encodeContent_computation`, `run_encodeContent_computation_strict`).
* `run_forM`: **an invariant of a loop**.  It is indexed by the elements that have been visited, so
  it can say what the state owes to each of them.  One step from `earlier` to `earlier ++ [x]` is
  all that has to be shown.
* `run_visitAll`: the same for a loop over the commands that replaces each of them, up to any
  command; a whole loop is `run_atEachCommand`.
* `exists_of_loop_error`: a loop that fails has gone through some elements and fails at the next
  one; over a list, `exists_of_forM_error`, and over the commands, `exists_of_visitAll_error`.
-/

namespace HackAssembly

def Assembler.diagnose (a : Assembler) (ds : List Diagnostic) : Assembler :=
  { a with diagnostics := a.diagnostics ++ ds.toArray }

namespace Assembler

variable (a : Assembler) (ds : List Diagnostic)

@[simp] theorem mode_diagnose : (a.diagnose ds).mode = a.mode := rfl

@[simp] theorem line_diagnose : (a.diagnose ds).line = a.line := rfl

@[simp] theorem nextInstruction_diagnose :
    (a.diagnose ds).nextInstruction = a.nextInstruction := rfl

@[simp] theorem nextVariable_diagnose : (a.diagnose ds).nextVariable = a.nextVariable := rfl

@[simp] theorem table_diagnose : (a.diagnose ds).table = a.table := rfl

@[simp] theorem commands_diagnose : (a.diagnose ds).commands = a.commands := rfl

@[simp] theorem diagnostics_diagnose :
    (a.diagnose ds).diagnostics.toList = a.diagnostics.toList ++ ds := by
  simp [diagnose]

@[simp] theorem diagnose_nil : a.diagnose [] = a := by
  simp [diagnose]

theorem diagnose_append (es : List Diagnostic) :
    (a.diagnose ds).diagnose es = a.diagnose (ds ++ es) := by
  simp [diagnose]

end Assembler

namespace Assembly

variable {a b : Assembler}

/-! ## One action after the other -/

theorem run_bind_of_ok {α β : Type} {x : Assembly α} {v : α} (h : x.run a = .ok v b)
    (f : α → Assembly β) : (x >>= f).run a = (f v).run b := by
  rw [EStateM.run_bind, h]

theorem run_bind_of_error {α β : Type} {x : Assembly α} {fault : Fault}
    (h : x.run a = .error fault b) (f : α → Assembly β) : (x >>= f).run a = .error fault b := by
  rw [EStateM.run_bind, h]

theorem run_bind_eq_ok {α β : Type} {x : Assembly α} {f : α → Assembly β} {v : β} {c : Assembler} :
    (x >>= f).run a = .ok v c ↔ ∃ u b, x.run a = .ok u b ∧ (f u).run b = .ok v c := by
  rw [EStateM.run_bind]
  cases x.run a with
  | ok u b =>
    constructor
    · exact fun h => ⟨u, b, rfl, h⟩
    · rintro ⟨_, _, ⟨⟩, h⟩
      exact h
  | error fault b =>
    constructor
    · rintro ⟨⟩
    · rintro ⟨_, _, ⟨⟩, -⟩

theorem run_bind_eq_error {α β : Type} {x : Assembly α} {f : α → Assembly β} {fault : Fault}
    {c : Assembler} : (x >>= f).run a = .error fault c ↔
      x.run a = .error fault c ∨ ∃ u b, x.run a = .ok u b ∧ (f u).run b = .error fault c := by
  rw [EStateM.run_bind]
  cases x.run a with
  | ok u b =>
    constructor
    · exact fun h => Or.inr ⟨u, b, rfl, h⟩
    · rintro (⟨⟨⟩⟩ | ⟨_, _, ⟨⟩, h⟩)
      exact h
  | error fault' b =>
    constructor
    · rintro ⟨⟩
      exact Or.inl rfl
    · rintro (⟨⟨⟩⟩ | ⟨_, _, ⟨⟩, -⟩)
      rfl

/-- A loop over two lists is a loop over the first and then one over the second. -/
theorem forM_append {β : Type} (l m : List β) (f : β → Assembly Unit) :
    (l ++ m).forM f = l.forM f >>= fun _ => m.forM f := by
  simp

theorem forM_concat {β : Type} (l : List β) (x : β) (f : β → Assembly Unit) :
    (l ++ [x]).forM f = l.forM f >>= fun _ => f x := by
  simp

/-! ## Problems -/

theorem run_report (h : a.mode = .lenient) (line : Int) (content : Bytes) (problem : Problem) :
    (report line content problem).run a = .ok () (a.diagnose [{ line, content, problem }]) :=
  report_lenient h line content problem

theorem run_reportAll (h : a.mode = .lenient) (line : Int) (content : Bytes)
    (problems : List Problem) :
    (reportAll line content problems).run a
      = .ok () (a.diagnose (problems.map fun problem => { line, content, problem })) := by
  induction problems generalizing a with
  | nil => simp [reportAll]
  | cons problem rest ih =>
    have hrest := ih (a := a.diagnose [{ line, content, problem }]) h
    rw [reportAll] at hrest ⊢
    rw [List.forM_eq_forM, List.forM_cons, run_bind_of_ok (run_report h line content problem)]
    rw [← List.forM_eq_forM, hrest, Assembler.diagnose_append]
    rfl

/-- In strict mode the first problem ends the run. -/
theorem run_reportAll_strict (h : a.mode = .strict) (line : Int) (content : Bytes)
    (problems : List Problem) :
    (reportAll line content problems).run a = match problems with
      | [] => .ok () a
      | problem :: _ => .error (.rejected { line, content, problem }) a := by
  cases problems with
  | nil => rfl
  | cons problem rest =>
    have hreport : (report line content problem).run a
        = .error (.rejected { line, content, problem }) a := report_strict h line content problem
    rw [reportAll, List.forM_eq_forM, List.forM_cons, run_bind_of_error hreport]

theorem run_checkAddress (h : a.mode = .lenient) (line : Int) (content : Bytes) (address : Int) :
    (checkAddress line content address).run a
      = .ok (address % (largestAddress + 1)).toNat.toUInt16
        (a.diagnose (if largestAddress < address
          then [{ line, content, problem := .addressTooLarge }] else [])) := by
  rw [checkAddress]
  split
  · rw [run_bind_of_ok (run_report h line content .addressTooLarge)]
    rfl
  · rw [Assembler.diagnose_nil]
    rfl

/-- In lenient mode a computation is encoded with what is understood of it. -/
theorem run_encodeContent_computation (h : a.mode = .lenient) (number : Int) (line : Bytes) :
    (encodeContent .computation number line).run a
      = .ok (Computation.instruction line).encode (a.diagnose
        ((Computation.problems line).map fun problem =>
          { line := number, content := line, problem })) := by
  rw [encodeContent, run_bind_of_ok (run_reportAll h number line _)]
  rfl

/-- In strict mode a computation is encoded only when all of it is understood. -/
theorem run_encodeContent_computation_strict (h : a.mode = .strict) (number : Int) (line : Bytes) :
    (encodeContent .computation number line).run a = match Computation.problems line with
      | [] => .ok (Computation.instruction line).encode a
      | problem :: _ => .error (.rejected { line := number, content := line, problem }) a := by
  have hreport := run_reportAll_strict h number line (Computation.problems line)
  rw [encodeContent]
  cases hproblems : Computation.problems line with
  | nil =>
    rw [hproblems] at hreport
    rw [run_bind_of_ok hreport]
    rfl
  | cons problem rest =>
    rw [hproblems] at hreport
    rw [run_bind_of_error hreport]

/-! ## Loops -/

theorem run_forM {β : Type} {f : β → Assembly Unit} {I : List β → Assembler → Prop} (l : List β)
    (step : ∀ earlier x later, l = earlier ++ x :: later → ∀ a, I earlier a →
      ∃ b, (f x).run a = .ok () b ∧ I (earlier ++ [x]) b) (h : I [] a) :
    ∃ b, (l.forM f).run a = .ok () b ∧ I l b := by
  -- the visited elements grow while the remaining ones shrink
  have loop : ∀ later earlier, l = earlier ++ later → ∀ a, I earlier a →
      ∃ b, (later.forM f).run a = .ok () b ∧ I l b := by
    intro later
    induction later with
    | nil =>
      intro earlier hl a ha
      rw [List.append_nil] at hl
      exact ⟨a, rfl, hl ▸ ha⟩
    | cons x later ih =>
      intro earlier hl a ha
      obtain ⟨b, hb, hI⟩ := step earlier x later hl a ha
      obtain ⟨c, hc, hJ⟩ := ih (earlier ++ [x]) (by rw [hl]; simp) b hI
      refine ⟨c, ?_, hJ⟩
      rw [List.forM_eq_forM, List.forM_cons, run_bind_of_ok hb, ← List.forM_eq_forM, hc]
  exact loop l [] rfl a h

/-- **Where a loop fails**: it has gone through some elements and fails at the next one.  What is
done with an element may depend on the elements before it. -/
theorem exists_of_loop_error {β : Type} (loop : List β → Assembly Unit)
    {f : List β → β → Assembly Unit} (hnil : loop [] = pure ())
    (hconcat : ∀ l x, loop (l ++ [x]) = loop l >>= fun _ => f l x) {l : List β} {fault : Fault}
    (h : (loop l).run a = .error fault b) :
    ∃ earlier x later c, l = earlier ++ x :: later ∧ (loop earlier).run a = .ok () c ∧
      (f earlier x).run c = .error fault b := by
  induction l using List.reverseRecOn with
  | nil =>
    rw [hnil] at h
    cases h
  | append_singleton l x ih =>
    rw [hconcat] at h
    cases hrun : (loop l).run a with
    | error fault' b' =>
      rw [run_bind_of_error hrun] at h
      cases h
      obtain ⟨earlier, y, later, c, rfl, hearlier, hy⟩ := ih hrun
      exact ⟨earlier, y, later ++ [x], c, by simp, hearlier, hy⟩
    | ok _ c =>
      rw [run_bind_of_ok hrun] at h
      exact ⟨l, x, [], c, rfl, hrun, h⟩

theorem exists_of_forM_error {β : Type} {f : β → Assembly Unit} {l : List β} {fault : Fault}
    (h : (l.forM f).run a = .error fault b) :
    ∃ earlier x later c, l = earlier ++ x :: later ∧ (earlier.forM f).run a = .ok () c ∧
      (f x).run c = .error fault b :=
  exists_of_loop_error (fun l => l.forM f) rfl (fun l x => forM_concat l x f) h

theorem run_setCommand {before after : List Command} {old : Command}
    (h : a.commands.toList = before ++ old :: after) (command : Command) :
    ∃ commands, (setCommand before.length command).run a = .ok () { a with commands } ∧
      commands.toList = before ++ command :: after := by
  refine ⟨a.commands.setIfInBounds before.length command, rfl, ?_⟩
  rw [Array.toList_setIfInBounds, h]
  simp

/-- Performs an action at each of some commands, which are the first ones. -/
def visitAll (visit : Nat → Command → Assembly Unit) (commands : List Command) : Assembly Unit :=
  commands.zipIdx.forM fun x => visit x.2 x.1

theorem visitAll_concat (visit : Nat → Command → Assembly Unit) (commands : List Command)
    (command : Command) :
    visitAll visit (commands ++ [command])
      = visitAll visit commands >>= fun _ => visit commands.length command := by
  rw [visitAll, List.zipIdx_append, List.zipIdx_singleton, forM_concat, Nat.zero_add, visitAll]

theorem exists_of_visitAll_error {visit : Nat → Command → Assembly Unit} {commands : List Command}
    {fault : Fault} (h : (visitAll visit commands).run a = .error fault b) :
    ∃ earlier command later c, commands = earlier ++ command :: later ∧
      (visitAll visit earlier).run a = .ok () c ∧
      (visit earlier.length command).run c = .error fault b :=
  exists_of_loop_error (visitAll visit) rfl (visitAll_concat visit) h

theorem run_atEachCommand (visit : Nat → Command → Assembly Unit) (a : Assembler) :
    (atEachCommand visit).run a = (visitAll visit a.commands.toList).run a := rfl

theorem run_visitAll {visit : Nat → Command → Assembly Unit} {f : Command → Command}
    {I : List Command → Assembler → Prop}
    (step : ∀ earlier command later, a.commands.toList = earlier ++ command :: later → ∀ b,
      I earlier b → b.commands.toList = earlier.map f ++ command :: later →
      ∃ c, (visit earlier.length command).run b = .ok () c ∧ I (earlier ++ [command]) c ∧
        c.commands.toList = earlier.map f ++ f command :: later) (h : I [] a)
    {visited later : List Command} (hsplit : a.commands.toList = visited ++ later) :
    ∃ b, (visitAll visit visited).run a = .ok () b ∧ I visited b ∧
      b.commands.toList = visited.map f ++ later := by
  induction visited using List.reverseRecOn generalizing later with
  | nil => exact ⟨a, rfl, h, hsplit⟩
  | append_singleton visited command ih =>
    rw [List.append_assoc, List.singleton_append] at hsplit
    obtain ⟨b, hb, hI, hcommands⟩ := ih hsplit
    obtain ⟨c, hc, hJ, hset⟩ := step visited command later hsplit b hI hcommands
    refine ⟨c, ?_, hJ, by rw [hset]; simp⟩
    rw [visitAll_concat, run_bind_of_ok hb, hc]

end Assembly

end HackAssembly
