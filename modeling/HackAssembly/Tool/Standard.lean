import HackAssembly.Text.Quoted
import HackAssembly.Tool
import HackAssembly.Tool.Invocation

/-!
# What the tool is shown with

The tool leaves three things to others: how its arguments are read, how diagnostics are shown as
records, and what a line of the log looks like.  Here is one way to do them.

* `Invocation.read` reads the arguments.
* A record has its texts quoted.  More than 1024 diagnostics are too many to be shown, and an
  ellipsis stands in their place.
* A line of the log starts with a header, which names the part of the tool that writes the line, and
  has at most 15000 bytes, the header and the line feed at the end included.  So the room for the
  message depends on the part.  What does not fit is left out, even if that cuts a character in two.
-/

namespace HackAssembly

namespace Listing

def record (d : Diagnostic) : Bytes :=
  line (ascii "  assembler.Diagnostic\x7b")
    ++ line (ascii "    Line:    " ++ Decimal.ofInt d.line ++ ascii ",")
    ++ line (ascii "    Content: " ++ quoted d.content ++ ascii ",")
    ++ line (ascii "    Msg:     " ++ quoted d.problem.message ++ ascii ",")
    ++ line (ascii "  \x7d,")

/-- The most diagnostics whose records are shown. -/
def recordLimit : Nat := 1024

def records (ds : List Diagnostic) : Bytes :=
  if recordLimit < ds.length then line (ascii "[]assembler.Diagnostic\x7b...\x7d")
  else line (ascii "[]assembler.Diagnostic\x7b") ++ ds.flatMap record ++ line (ascii "\x7d")

end Listing

namespace LogOrigin

/-- The most bytes of a line of the log. -/
def lineLimit : Nat := 15000

def headerSize : LogOrigin → Nat
  | tool => 42
  | assembling => 41
  | disassembling => 44
  | passes => 48

/-- How many bytes of a message fit between the header and the line feed. -/
def room (origin : LogOrigin) : Nat := lineLimit - origin.headerSize - 1

end LogOrigin

/-- What the log shows of the message: as much as fits on the line.  A line feed at the end of that
is the one that ends the line, and no second one follows. -/
def LogEntry.text (entry : LogEntry) : Bytes :=
  let fitting := entry.message.take entry.origin.room
  if fitting.getLast? == some Byte.lineFeed then fitting.dropLast else fitting

def Tool.Packages.standard : Packages where
  read arguments := (Invocation.read arguments).mapError UsageFault.render
  records := Listing.records

end HackAssembly
