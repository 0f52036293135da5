import HackAssembly.Instruction
import HackAssembly.Source
import HackAssembly.Text.Blank
import HackAssembly.Text.Line
import HackAssembly.Text.Quoted

/-!
# Disassembling

A binary file has a word on each line, written as sixteen binary digits.  Lines end at line feeds
only; a carriage return right before the end of a line does not belong to it, white space around the
word is ignored, and lines with nothing else are skipped, though counted.

A line that is too long ends the reading.  So does the first text that is not a word, and the first
of the two decides.  A failure of the source comes last: what was read before it, up to its last
byte, is looked at first.

* `Word.read`: the word that a text of digits denotes.
* `disassemble`: the canonical instruction of a text of digits.
* `disassembleAll`: the canonical instructions of a binary file.
-/

namespace HackAssembly

/-! ## One word -/

/-- Why a text is not the word of an instruction. -/
inductive WordFault where
  | length (count : Nat)
  | digit (b : UInt8)
  /-- It is a word, but not of an instruction. -/
  | undecodable (reason : Undecodable)
  deriving DecidableEq

/-- A text that is not the word of an instruction. -/
structure MalformedWord where
  text : Bytes
  fault : WordFault
  deriving DecidableEq

def MalformedWord.render (m : MalformedWord) : Bytes :=
  ascii "malformed binary word: " ++ quoted m.text ++
    match m.fault with
    | .length count => ascii " has " ++ Decimal.ofNat count ++ ascii " characters"
    | .digit b => ascii " contains " ++ quotedCode b
    | .undecodable .header => ascii " is a c instruction without 11 prefix"
    | .undecodable (.comp code) => ascii " has unknown comp bits " ++ Binary.render code

/-- The word that a text of sixteen binary digits denotes. -/
def Word.read (text : Bytes) : Except WordFault Word :=
  if text.length = 16 then
    match text.find? (!Binary.isDigit ·) with
    | none => .ok (Binary.value 16 text)
    | some b => .error (.digit b)
  else .error (.length text.length)

def Instruction.ofDigits (text : Bytes) : Except WordFault Instruction := do
  let word ← Word.read text
  (Instruction.decode word).mapError .undecodable

/-- The canonical text of the instruction whose word a text denotes. -/
def disassemble (text : Bytes) : Except MalformedWord Bytes :=
  match Instruction.ofDigits text with
  | .ok instruction => .ok instruction.render
  | .error fault => .error { text, fault }

/-! ## A file of words -/

inductive DisassemblyFault where
  | malformed (line : Nat) (word : MalformedWord)
  | lineTooLong
  | unreadable (cause : Bytes)
  deriving DecidableEq

def DisassemblyFault.render : DisassemblyFault → Bytes
  | malformed line word => ascii "line " ++ Decimal.ofNat line ++ ascii ": " ++ word.render
  | lineTooLong => ascii "bufio.Scanner: token too long"
  | unreadable cause => cause

/-- The number of bytes that may be looked at in search of the end of a line. -/
def longestLine : Nat := 65536

/-- A line of a binary file. -/
structure BinaryLine where
  /-- Its bytes without the line feed. -/
  bytes : Bytes
  /-- Whether its end was found soon enough. -/
  fits : Bool
  deriving DecidableEq

/-- The lines of a binary file.  The line feed counts towards the length of a line; a last line
without one must be shorter than the limit, and counts only when it is not empty. -/
def binaryLines (bytes : Bytes) : List BinaryLine :=
  let (complete, rest) := chunks bytes
  complete.map (fun chunk => ⟨chunk.dropLast, chunk.length ≤ longestLine⟩)
    ++ if rest.isEmpty then [] else [⟨rest, rest.length < longestLine⟩]

/-- A line without the carriage return that may end it. -/
def withoutReturn (line : Bytes) : Bytes :=
  if line.getLast? == some Byte.carriageReturn then line.dropLast else line

def BinaryLine.word (line : BinaryLine) : Bytes := trimmed (withoutReturn line.bytes)

/-- What a line gives: nothing when it is blank, otherwise the text of its instruction. -/
def disassembleLine (number : Nat) (line : BinaryLine) : Except DisassemblyFault (Option Bytes) :=
  if line.fits then
    if line.word.isEmpty then .ok none
    else match disassemble line.word with
      | .ok text => .ok (some text)
      | .error word => .error (.malformed number word)
  else .error .lineTooLong

def disassembleAll (source : Source) : Except DisassemblyFault (List Bytes) := do
  let texts ← (binaryLines source.bytes).zipIdx 1 |>.filterMapM fun (line, number) =>
    disassembleLine number line
  match source.failure with
  | none => .ok texts
  | some cause => .error (.unreadable cause)

end HackAssembly
