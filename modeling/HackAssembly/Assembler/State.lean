import HackAssembly.Command
import HackAssembly.Diagnostic
import HackAssembly.SymbolTable

/-!
# The assembler's state

An assembler works in three passes over a program, and what a pass has done stays visible also when
it fails halfway.  So the passes are actions on a state that survives a fault: `Assembly` is a state
monad with exceptions in which the state is kept.

Problems go through `report`, the only place where the two modes differ: lenient mode records a
diagnostic and goes on, strict mode ends the run with it.

* `Assembler`, `Assembler.fresh`: the state, and the state before a run.
* `Assembly`: actions of the assembler.
* `report`, `reportAll`: meeting problems.
* `checkAddress`: an address brought down to fifteen bits, reported when it does not fit.
-/

namespace HackAssembly

/-- How an assembler deals with problems. -/
inductive Mode where
  /-- Zero bits stand in for what is not understood. -/
  | lenient
  /-- The first problem ends the run. -/
  | strict
  deriving DecidableEq

/-- A step of a run that the log may show. -/
inductive Event where
  | labelBound (name : Bytes) (address : Nat)
  | variableAllocated (name : Bytes) (address : Nat)
  | gathered (instructions symbols : Nat)
  | resolved (allocated : Nat)
  | encoded (diagnostics : Nat)
  deriving DecidableEq

/-- The address of the first variable. -/
def firstVariable : Nat := 16

/-- The largest address that an instruction can load. -/
def largestAddress : Nat := 32767

structure Assembler where
  mode : Mode
  /-- The number of source lines read. -/
  line : Nat := 0
  nextInstruction : Nat := 0
  nextVariable : Nat := firstVariable
  table : SymbolTable := .predefined
  commands : Array Command := #[]
  diagnostics : Array Diagnostic := #[]
  trace : Array Event := #[]

def Assembler.fresh (mode : Mode) : Assembler := { mode }

/-- An action of an assembler.  A fault keeps the state in which it arose. -/
abbrev Assembly := EStateM Fault Assembler

namespace Assembly

/-- Forgets all but the mode. -/
def reset : Assembly Unit := modify fun a => .fresh a.mode

def note (event : Event) : Assembly Unit :=
  modify fun a => { a with trace := a.trace.push event }

/-- Meets a problem: records it in lenient mode, ends the run in strict mode. -/
def report (line : Int) (content : Bytes) (problem : Problem) : Assembly Unit := do
  let diagnostic : Diagnostic := { line, content, problem }
  match (← get).mode with
  | .lenient => modify fun a => { a with diagnostics := a.diagnostics.push diagnostic }
  | .strict => throw (.rejected diagnostic)

theorem report_lenient {a : Assembler} (h : a.mode = .lenient) (line : Int) (content : Bytes)
    (problem : Problem) :
    report line content problem a
      = .ok () { a with diagnostics := a.diagnostics.push { line, content, problem } } := by
  obtain ⟨mode⟩ := a
  obtain rfl : mode = .lenient := h
  rfl

theorem report_strict {a : Assembler} (h : a.mode = .strict) (line : Int) (content : Bytes)
    (problem : Problem) :
    report line content problem a = .error (.rejected { line, content, problem }) a := by
  obtain ⟨mode⟩ := a
  obtain rfl : mode = .strict := h
  rfl

def reportAll (line : Int) (content : Bytes) (problems : List Problem) : Assembly Unit :=
  problems.forM (report line content)

def bindSymbol (name : Bytes) (address : Address) : Assembly Unit :=
  modify fun a => { a with table := a.table.insert name address }

def setCommand (index : Nat) (command : Command) : Assembly Unit :=
  modify fun a => { a with commands := a.commands.setIfInBounds index command }

/-- The low fifteen bits of an address, reported when it is larger than they can hold. -/
def checkAddress (line : Int) (content : Bytes) (address : Int) : Assembly Address := do
  if largestAddress < address then
    report line content .addressTooLarge
  return (address % (largestAddress + 1)).toNat.toUInt16

end Assembly

end HackAssembly
