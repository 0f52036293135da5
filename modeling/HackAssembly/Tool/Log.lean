import HackAssembly.Assembler.State

/-!
# The log

The tool logs the steps of a run, each at a level, the diagnostics of a lenient run as warnings, and
the failure that ends a run as an error.  Which steps show up in the log is up to a gate, which
knows their level and the part of the tool that they come from; warnings and errors always do.
Where the log is kept is not said here.
-/

namespace HackAssembly

inductive Severity where
  /-- A step of a run, at a level. -/
  | info (level : Nat)
  | warning
  | error
  deriving DecidableEq

/-- The parts of the tool that write to the log. -/
inductive LogOrigin where
  /-- The tool itself, which says why a run failed. -/
  | tool
  | assembling
  | disassembling
  | passes
  deriving DecidableEq

/-- Which steps the log lets through, by their origin and their level. -/
abbrev LogGate := LogOrigin → Nat → Bool

structure LogEntry where
  severity : Severity
  origin : LogOrigin
  message : Bytes
  deriving DecidableEq

def LogEntry.isShown (gate : LogGate) (entry : LogEntry) : Bool :=
  match entry.severity with
  | .info level => gate entry.origin level
  | .warning => true
  | .error => true

def Event.logEntry : Event → LogEntry
  | labelBound name address =>
    ⟨.info 3, .passes, ascii "label " ++ name ++ ascii " bound to " ++ Decimal.ofNat address⟩
  | variableAllocated name address =>
    ⟨.info 3, .passes,
      ascii "variable " ++ name ++ ascii " allocated at " ++ Decimal.ofNat address⟩
  | gathered instructions symbols =>
    ⟨.info 2, .passes,
      ascii "pass 1 done: " ++ Decimal.ofNat instructions ++ ascii " instructions, "
        ++ Decimal.ofNat symbols ++ ascii " symbols"⟩
  | resolved allocated =>
    ⟨.info 2, .passes,
      ascii "pass 2 done: " ++ Decimal.ofNat allocated ++ ascii " variables allocated"⟩
  | encoded diagnostics =>
    ⟨.info 2, .passes, ascii "pass 3 done: " ++ Decimal.ofNat diagnostics ++ ascii " diagnostics"⟩

def Diagnostic.logEntry (path : Bytes) (d : Diagnostic) : LogEntry :=
  ⟨.warning, .assembling, path ++ ascii ": " ++ d.render⟩

end HackAssembly
