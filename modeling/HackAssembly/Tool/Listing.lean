import HackAssembly.Assembler

/-!
# The listing of a run

On request the tool shows what a run has found out: each command on a line, the symbol table, and,
if there are any, the diagnostics.  How records are shown is not said here.
-/

namespace HackAssembly.Listing

def line (text : Bytes) : Bytes := text ++ [Byte.lineFeed]

/-- All that a run has found out, with a way to show diagnostics. -/
def ofAssembler (records : List Diagnostic → Bytes) (a : Assembler) : Bytes :=
  (a.commands.toList.flatMap fun command => line command.render) ++ a.table.render
    ++ if a.diagnostics.isEmpty then [] else records a.diagnostics.toList

end HackAssembly.Listing
