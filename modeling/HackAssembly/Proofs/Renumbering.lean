import HackAssembly.Proofs.Outcomes

/-!
# Other line numbers

No pass decides anything by the number of a line.  Numbers are only copied: from the count of the
lines that have been read into commands and diagnostics, and from commands into diagnostics and
faults.  So when all numbers in a state are replaced by other ones, a run from there does the same
as before, with the numbers replaced in what it leaves behind.

`Renumbers number count x y` says this of two actions that differ in the numbers they are given.
The numbers of lines are replaced by `number` and the count of lines by `count`, and nothing is
asked of the two functions.  Only the first pass reads the count, to number the line that it is at,
so there the two have to be the same.
-/

namespace HackAssembly

open Assembly

def Statement.renumber (number : Nat → Nat) (st : Statement) : Statement :=
  { st with line := number st.line }

def Command.renumber (number : Nat → Nat) (command : Command) : Command :=
  { command with line := number command.line }

def Diagnostic.renumber (number : Nat → Nat) (d : Diagnostic) : Diagnostic :=
  { d with line := number d.line.toNat }

/-- A fault with another line number.  The place where a source breaks off is not the number of a
statement and stays as it is. -/
def Fault.renumber (number : Nat → Nat) : Fault → Fault
  | rejected d => rejected (d.renumber number)
  | undefinedSymbol line name => undefinedSymbol (number line.toNat) name
  | fault => fault

/-- The same state with other line numbers and another count of lines. -/
def Assembler.renumber (number count : Nat → Nat) (a : Assembler) : Assembler :=
  { a with
    line := count a.line
    commands := a.commands.map (Command.renumber number)
    diagnostics := a.diagnostics.map (Diagnostic.renumber number) }

def Outcome.renumber {α : Type} (number count : Nat → Nat) : Outcome α → Outcome α
  | .ok v a => .ok v (a.renumber number count)
  | .error fault a => .error (fault.renumber number) (a.renumber number count)

def Outcome.fault? {α : Type} : Outcome α → Option Fault
  | .ok _ _ => none
  | .error fault _ => some fault

theorem Outcome.fault?_eq_some {α : Type} {outcome : Outcome α} {fault : Fault} :
    outcome.fault? = some fault ↔ ∃ a, outcome = .error fault a := by
  cases outcome <;> simp [Outcome.fault?]

theorem Outcome.fault?_renumber {α : Type} (number count : Nat → Nat) (outcome : Outcome α) :
    (outcome.renumber number count).fault? = outcome.fault?.map (Fault.renumber number) := by
  cases outcome <;> rfl

/-- Actions that do the same but for the numbers of lines. -/
def Renumbers {α : Type} (number count : Nat → Nat) (x y : Assembly α) : Prop :=
  ∀ a : Assembler, y.run (a.renumber number count) = Outcome.renumber number count (x.run a)

namespace Renumbers

variable {α β : Type} {number count : Nat → Nat}

/-! ## Putting actions together -/

protected theorem pure (v : α) : Renumbers number count (pure v) (pure v) := fun _ => rfl

protected theorem throw (fault : Fault) :
    Renumbers number count (throw fault : Assembly α) (throw (fault.renumber number)) :=
  fun _ => rfl

protected theorem modify {f g : Assembler → Assembler}
    (h : ∀ a, g (a.renumber number count) = (f a).renumber number count) :
    Renumbers number count (modify f : Assembly Unit) (modify g) :=
  fun a => congrArg (EStateM.Result.ok ()) (h a)

theorem get_bind {k l : Assembler → Assembly β}
    (h : ∀ a, Renumbers number count (k a) (l (a.renumber number count))) :
    Renumbers number count (get >>= k) (get >>= l) :=
  fun a => h a a

/-- What comes next does the same behind two runs that have done the same. -/
theorem run_bind {x y : Assembly α} {f g : α → Assembly β} {a b : Assembler}
    (hrun : y.run b = Outcome.renumber number count (x.run a))
    (hf : ∀ v, Renumbers number count (f v) (g v)) :
    (y >>= g).run b = Outcome.renumber number count ((x >>= f).run a) := by
  cases hxa : x.run a with
  | error fault c =>
    rw [hxa] at hrun
    rw [run_bind_of_error hxa, run_bind_of_error hrun]
    rfl
  | ok v c =>
    rw [hxa] at hrun
    rw [run_bind_of_ok hxa, run_bind_of_ok hrun]
    exact hf v c

protected theorem bind {x y : Assembly α} {f g : α → Assembly β} (hx : Renumbers number count x y)
    (hf : ∀ v, Renumbers number count (f v) (g v)) :
    Renumbers number count (x >>= f) (y >>= g) :=
  fun a => run_bind (hx a) hf

protected theorem ite {c : Prop} [Decidable c] {x x' y y' : Assembly α}
    (hx : Renumbers number count x y) (hx' : Renumbers number count x' y') :
    Renumbers number count (if c then x else x') (if c then y else y') := by
  split
  · exact hx
  · exact hx'

protected theorem forM {f g : β → Assembly Unit} (h : ∀ v, Renumbers number count (f v) (g v))
    (l : List β) : Renumbers number count (l.forM f) (l.forM g) := by
  induction l with
  | nil => exact Renumbers.pure ()
  | cons x l ih =>
    rw [List.forM_eq_forM, List.forM_cons, List.forM_cons]
    exact Renumbers.bind (h x) fun _ => ih

/-! ## Problems -/

/-- **Reporting** takes the number of the line along, whether it records a problem or fails. -/
protected theorem report (line : Nat) (content : Bytes) (problem : Problem) :
    Renumbers number count (report line content problem)
      (report (number line) content problem) := by
  intro a
  cases hmode : a.mode with
  | lenient =>
    have hmode' : (a.renumber number count).mode = .lenient := hmode
    rw [run_report hmode, run_report hmode']
    simp [Outcome.renumber, Assembler.renumber, Assembler.diagnose, Diagnostic.renumber]
  | strict =>
    have hmode' : (a.renumber number count).mode = .strict := hmode
    have hrun := report_strict hmode line content problem
    have hrun' := report_strict hmode' (number line) content problem
    rw [EStateM.run, EStateM.run, hrun, hrun']
    rfl

theorem reportAll (line : Nat) (content : Bytes) (problems : List Problem) :
    Renumbers number count (reportAll line content problems)
      (reportAll (number line) content problems) :=
  Renumbers.forM (Renumbers.report line content) problems

theorem checkAddress (line : Nat) (content : Bytes) (address : Int) :
    Renumbers number count (checkAddress line content address)
      (checkAddress (number line) content address) :=
  Renumbers.ite (Renumbers.bind (Renumbers.report line content _) fun _ => Renumbers.pure _)
    (Renumbers.pure _)

/-! ## Changes of the state -/

theorem note (event : Event) : Renumbers number count (note event) (note event) :=
  Renumbers.modify fun _ => rfl

theorem bindSymbol (name : Bytes) (address : Address) :
    Renumbers number count (bindSymbol name address) (bindSymbol name address) :=
  Renumbers.modify fun _ => rfl

theorem setCommand (index : Nat) (command : Command) :
    Renumbers number count (setCommand index command)
      (setCommand index (command.renumber number)) := by
  apply Renumbers.modify
  intro a
  simp [Assembler.renumber, Array.map_setIfInBounds]

/-! ## The first pass -/

theorem declareLabel (content label : Bytes) :
    Renumbers number number (declareLabel content label) (declareLabel content label) := by
  apply get_bind
  intro a
  apply get_bind
  intro b
  apply Renumbers.bind (checkAddress a.line content b.nextInstruction)
  intro address
  exact Renumbers.bind (bindSymbol label address) fun _ => note _

theorem addCommand (content : Bytes) :
    Renumbers number number (addCommand content) (addCommand content) := by
  have hpush : Renumbers number number
      (modify fun a : Assembler => { a with
        commands := a.commands.push { line := a.line, content }
        nextInstruction := a.nextInstruction + 1 } : Assembly Unit)
      (modify fun a : Assembler => { a with
        commands := a.commands.push { line := a.line, content }
        nextInstruction := a.nextInstruction + 1 }) := by
    apply Renumbers.modify
    intro a
    simp [Assembler.renumber, Command.renumber]
  apply Renumbers.ite _ hpush
  apply get_bind
  intro a
  exact Renumbers.bind (Renumbers.report a.line content _) fun _ => hpush

theorem gatherContent (content : Bytes) :
    Renumbers number number (gatherContent content) (gatherContent content) := by
  rw [Assembly.gatherContent]
  apply Renumbers.ite (Renumbers.pure ())
  split
  · exact declareLabel _ _
  · exact addCommand _

/-! ## The later passes -/

theorem atEachCommand {visit : Nat → Command → Assembly Unit}
    (h : ∀ index command, Renumbers number count (visit index command)
      (visit index (command.renumber number))) :
    Renumbers number count (atEachCommand visit) (atEachCommand visit) := by
  apply get_bind
  intro a
  have hlist : (a.renumber number count).commands.toList.zipIdx
      = a.commands.toList.zipIdx.map fun x => (x.1.renumber number, x.2) := by
    rw [Assembler.renumber, Array.toList_map, List.zipIdx_map]
    rfl
  rw [hlist, List.forM_eq_forM, List.forM_map]
  exact Renumbers.forM (fun x : Command × Nat => h x.2 x.1) _

theorem allocate (line : Nat) (content name : Bytes) :
    Renumbers number count (allocate line content name) (allocate (number line) content name) := by
  apply get_bind
  intro a
  apply Renumbers.ite (Renumbers.pure ())
  apply get_bind
  intro b
  apply Renumbers.bind (checkAddress line content b.nextVariable)
  intro address
  apply Renumbers.bind (bindSymbol name address)
  intro _
  exact Renumbers.bind (note _) fun _ => Renumbers.modify fun _ => rfl

theorem resolve : Renumbers number count resolve resolve := by
  apply atEachCommand
  intro index command
  -- the kind depends on the content alone
  dsimp only [resolveCommand, Command.renumber]
  cases Kind.ofContent command.content with
  | symbol => exact Renumbers.bind (setCommand index _) fun _ => allocate _ _ _
  | constant => exact setCommand index _
  | computation =>
    exact Renumbers.ite (Renumbers.bind (Renumbers.report _ _ _) fun _ => setCommand index _)
      (setCommand index _)

theorem encodeContent (kind : Kind) (line : Nat) (content : Bytes) :
    Renumbers number count (encodeContent kind line content)
      (encodeContent kind (number line) content) := by
  cases kind with
  | constant =>
    exact Renumbers.ite (Renumbers.bind (Renumbers.report line content _) fun _ => Renumbers.pure _)
      (Renumbers.pure _)
  | symbol =>
    apply get_bind
    intro a
    dsimp only [Assembler.renumber]
    cases a.table.address? (content.drop 1) with
    | some address => exact Renumbers.pure _
    | none => exact Renumbers.throw (.undefinedSymbol line (content.drop 1))
  | computation =>
    exact Renumbers.bind (reportAll line content _) fun _ => Renumbers.pure _

theorem encode : Renumbers number count encode encode := by
  apply atEachCommand
  intro index command
  apply Renumbers.bind (encodeContent command.kind command.line command.content)
  intro word
  exact setCommand index { command with code := some word }

end Renumbers

/-! ## Behind the first pass -/

/-- What two sources leave behind once they are gathered is all that the rest of a run depends
on. -/
theorem run_thirdPass_renumber {source source' : Source} {number count : Nat → Nat}
    {a b : Assembler}
    (h : (gather source').run b = Outcome.renumber number count ((gather source).run a)) :
    (thirdPass source').run b = Outcome.renumber number count ((thirdPass source).run a) := by
  have hfirst : (firstPass source').run b
      = Outcome.renumber number count ((firstPass source).run a) := by
    refine Renumbers.run_bind h fun _ => Renumbers.get_bind fun c => ?_
    have hsize : (c.renumber number count).commands.size = c.commands.size := Array.size_map
    rw [hsize]
    exact Renumbers.note _
  have hsecond : (secondPass source').run b
      = Outcome.renumber number count ((secondPass source).run a) :=
    Renumbers.run_bind hfirst fun _ => Renumbers.bind Renumbers.resolve fun _ =>
      Renumbers.get_bind fun _ => Renumbers.note _
  refine Renumbers.run_bind hsecond fun _ => Renumbers.bind Renumbers.encode fun _ =>
    Renumbers.get_bind fun c => ?_
  have hsize : (c.renumber number count).diagnostics.size = c.diagnostics.size := Array.size_map
  rw [hsize]
  exact Renumbers.note _

end HackAssembly
