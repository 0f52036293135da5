import HackAssembly.Tool.Log

/-!
# Requests

The tool performs one of two actions on a file, with some settings.  An action has a word, and the
settings have flags, of which not every action knows all.  What arguments ask for with these is a
`Request`; how they are read is not said here.
-/

namespace HackAssembly

inductive Action where
  | assemble
  | disassemble
  deriving DecidableEq

structure Settings where
  /-- The path to write to; the empty path stands for the default. -/
  output : Bytes := []
  /-- Whether problems end the run. -/
  strict : Bool := false
  /-- Whether the commands, the symbols and the diagnostics are shown. -/
  verbose : Bool := false
  deriving DecidableEq

inductive Request where
  /-- To be shown something that does not depend on any file. -/
  | answered (output : Bytes)
  /-- An action on a file, of whose steps the log lets some through. -/
  | act (action : Action) (settings : Settings) (gate : LogGate) (path : Bytes)

/-! ## Words and flags -/

/-- A flag: one for each setting, and one for the verbosity of the log. -/
inductive Flag where
  | output
  | strict
  | verbose
  | verbosity
  deriving DecidableEq

namespace Flag

def name : Flag → Bytes
  | output => ascii "output"
  | strict => ascii "strict"
  | verbose => ascii "verbose"
  | verbosity => ascii "v"

def letter? : Flag → Option UInt8
  | output => some 0x6F
  | strict => none
  | verbose => none
  | verbosity => some 0x76

/-- Whether a flag stands for the value true when it is given none. -/
def isSwitch : Flag → Bool
  | output => false
  | strict => true
  | verbose => true
  | verbosity => false

end Flag

namespace Action

def word : Action → Bytes
  | assemble => ascii "asm"
  | disassemble => ascii "disasm"

/-- The flags of an action; the log has flags of its own. -/
def flags : Action → List Flag
  | assemble => [.output, .strict, .verbose]
  | disassemble => [.output]

end Action

end HackAssembly
