import HackAssembly.Tool.Request
import HackAssembly.Tool.Setting

/-!
# Invocations

A reader of the tool's arguments.  They are an action, flags and a file.  The action is the first
bare word, and may stand behind flags; the other arguments belong to it.

* An argument that does not start with `-`, or is `-` alone, is an operand.
* `--` ends the flags: all arguments after it are operands.
* `--name`, `--name=value`, `--name value` set a flag by name; a switch takes a value only after
  `=`.
* `-x`, `-xvalue`, `-x=value`, `-x value` set a flag by its letter.

The last value of a flag counts, and the first argument that cannot be used ends the reading.  Of
the flags of the log this reader knows only the one for the verbosity.
-/

namespace HackAssembly

/-! ## Faults -/

inductive UsageFault where
  | unknownAction (word : Bytes)
  /-- A flag without a proper name. -/
  | unnamedFlag (argument : Bytes)
  | unknownFlag (name : Bytes)
  | unknownLetter (letter : UInt8) (letters : Bytes)
  /-- A flag given by name at the end of the arguments, without its value. -/
  | noValue (argument : Bytes)
  /-- A flag given by its letter at the end of the arguments, without its value. -/
  | noLetterValue (letter : UInt8) (letters : Bytes)
  | badValue (flag : Flag) (value : Bytes) (fault : ValueFault)
  | operandCount (count : Nat)
  deriving DecidableEq

def Flag.title (flag : Flag) : Bytes :=
  match flag.letter? with
  | some letter => ascii "-" ++ [letter] ++ ascii ", --" ++ flag.name
  | none => ascii "--" ++ flag.name

def UsageFault.render : UsageFault → Bytes
  | unknownAction word =>
    ascii "unknown command " ++ quoted word ++ ascii " for " ++ quoted (ascii "hackasm")
  | unnamedFlag argument => ascii "bad flag syntax: " ++ argument
  | unknownFlag name => ascii "unknown flag: --" ++ name
  | unknownLetter letter letters =>
    ascii "unknown shorthand flag: " ++ quotedCode letter ++ ascii " in -" ++ letters
  | noValue argument => ascii "flag needs an argument: " ++ argument
  | noLetterValue letter letters =>
    ascii "flag needs an argument: " ++ quotedCode letter ++ ascii " in -" ++ letters
  | badValue flag value fault =>
    ascii "invalid argument " ++ quoted value ++ ascii " for " ++ quoted flag.title
      ++ ascii " flag: " ++ fault.render value
  | operandCount count => ascii "accepts 1 arg(s), received " ++ Decimal.ofNat count

/-! ## One argument -/

/-- What an argument says by itself. -/
inductive Argument where
  | operand
  | endOfFlags
  /-- It says nothing. -/
  | ignored
  | setting (flag : Flag) (value : Bytes)
  /-- It names a flag whose value is the next argument; without one it is at fault. -/
  | pending (flag : Flag) (fault : UsageFault)
  deriving DecidableEq

namespace Argument

/-- Reads an argument that starts with `--`, from what follows these. -/
def readName (known : List Flag) (argument rest : Bytes) : Except UsageFault Argument :=
  if rest.head? == some 0x2D || rest.head? == some 0x3D then .error (.unnamedFlag argument)
  else
    let name := rest.takeWhile (· != 0x3D)
    match known.find? (·.name == name) with
    | none => .error (.unknownFlag name)
    | some flag =>
      match rest.dropWhile (· != 0x3D) with
      | _ :: value => .ok (.setting flag value)
      | [] =>
        if flag.isSwitch then .ok (.setting flag (ascii "true"))
        else .ok (.pending flag (.noValue argument))

/-- Reads an argument that starts with a single `-`, from what follows it.  No switch has a letter,
so all that follows the first letter is the value of its flag. -/
def readLetter (known : List Flag) (letter : UInt8) (rest : Bytes) : Except UsageFault Argument :=
  let letters := letter :: rest
  if (ascii "test.").isPrefixOf letters then .ok .ignored
  else
    match known.find? (·.letter? == some letter) with
    | none => .error (.unknownLetter letter letters)
    | some flag =>
      match rest with
      | [] => .ok (.pending flag (.noLetterValue letter letters))
      | [b] => .ok (.setting flag [b])
      | b :: more => .ok (.setting flag (if b == 0x3D then more else b :: more))

def read (known : List Flag) (argument : Bytes) : Except UsageFault Argument :=
  match argument with
  | [0x2D, 0x2D] => .ok .endOfFlags
  | 0x2D :: 0x2D :: rest => readName known argument rest
  | 0x2D :: letter :: rest => readLetter known letter rest
  | _ => .ok .operand

end Argument

/-! ## All arguments -/

structure Arguments where
  settings : Settings := {}
  verbosity : Int := 0
  operands : List Bytes := []
  deriving DecidableEq

namespace Arguments

/-- Gives the setting of a flag a value, which may not be one of its values. -/
def put (a : Arguments) (flag : Flag) (value : Bytes) : Except ValueFault Arguments :=
  match flag with
  | .output => return { a with settings.output := value }
  | .strict => return { a with settings.strict := ← Setting.readSwitch value }
  | .verbose => return { a with settings.verbose := ← Setting.readSwitch value }
  | .verbosity => return { a with verbosity := ← Setting.readVerbosity value }

def set (a : Arguments) (flag : Flag) (value : Bytes) : Except UsageFault Arguments :=
  (a.put flag value).mapError (.badValue flag value)

def addOperands (a : Arguments) (operands : List Bytes) : Arguments :=
  { a with operands := a.operands ++ operands }

def read (known : List Flag) (a : Arguments) : List Bytes → Except UsageFault Arguments
  | [] => .ok a
  | argument :: rest =>
    match Argument.read known argument with
    | .error fault => .error fault
    | .ok .operand => read known (a.addOperands [argument]) rest
    | .ok .endOfFlags => .ok (a.addOperands rest)
    | .ok .ignored => read known a rest
    | .ok (.setting flag value) =>
      match a.set flag value with
      | .error fault => .error fault
      | .ok a => read known a rest
    | .ok (.pending flag fault) =>
      match rest with
      | [] => .error fault
      | value :: rest =>
        match a.set flag value with
        | .error fault => .error fault
        | .ok a => read known a rest

end Arguments

/-! ## The action -/

def Action.ofWord? (w : Bytes) : Option Action :=
  [Action.assemble, Action.disassemble].find? (·.word == w)

/-- Whether an argument in front of the action is taken for a flag whose value is the next
argument. -/
def takesNext (argument : Bytes) : Bool :=
  !argument.contains 0x3D && match argument with
    | 0x2D :: 0x2D :: _ => true
    | [0x2D, _] => true
    | _ => false

/-- The first bare word among arguments, with the other arguments, those in `before` in front.  An
argument that takes the next one along needs two behind it: its value and at least one more. -/
def firstWord (before : List Bytes) : List Bytes → Option (Bytes × List Bytes)
  | [] => none
  | argument :: rest =>
    if argument == ascii "--" then none
    else if takesNext argument then
      match rest with
      | value :: next :: rest => firstWord (before ++ [argument, value]) (next :: rest)
      | _ => none
    else if argument.isEmpty || argument.head? == some 0x2D then
      firstWord (before ++ [argument]) rest
    else some (argument, before ++ rest)

namespace Invocation

/-- The flags that can stand behind an action. -/
def known (action : Action) : List Flag := action.flags ++ [.verbosity]

/-- Lets the steps through that the verbosity reaches. -/
def gate (verbosity : Int) : LogGate := fun _ level => level ≤ verbosity

/-- Reads the arguments of the tool.  Without an action there is nothing to be shown. -/
def read (arguments : List Bytes) : Except UsageFault Request :=
  match firstWord [] arguments with
  | none => do
    let _ ← Arguments.read [.verbosity] {} arguments
    return .answered []
  | some (word, rest) =>
    match Action.ofWord? word with
    | none => .error (.unknownAction word)
    | some action => do
      let a ← Arguments.read (known action) {} rest
      match a.operands with
      | [path] => return .act action a.settings (gate a.verbosity) path
      | operands => throw (.operandCount operands.length)

end Invocation

end HackAssembly
