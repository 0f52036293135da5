import HackAssembly.Text.Byte

/-!
# Sources and sinks

A *source* gives all of its bytes and then either ends or fails with a cause.  A *sink* takes a text
or refuses it with a cause, and remembers what it was handed, so that it can be told apart whether a
run wrote nothing, wrote an empty text or was refused.
-/

namespace HackAssembly

structure Source where
  bytes : Bytes
  /-- Why reading fails after the last byte; without a cause the stream just ends. -/
  failure : Option Bytes := none
  deriving DecidableEq

structure Sink where
  /-- Why a text is refused, if it is. -/
  refusal : Bytes → Option Bytes := fun _ => none
  /-- The texts handed over, refused ones included, the last one first. -/
  attempts : List Bytes := []

namespace Sink

/-- Hands a text over; the answer is the cause of a refusal. -/
def write (sink : Sink) (text : Bytes) : Sink × Option Bytes :=
  ({ sink with attempts := text :: sink.attempts }, sink.refusal text)

def taken (sink : Sink) : Bytes :=
  (sink.attempts.reverse.filter fun text => (sink.refusal text).isNone).flatten

end Sink

end HackAssembly
