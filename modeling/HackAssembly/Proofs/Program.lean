import HackAssembly.Assembler
import HackAssembly.Proofs.Lines
import Mathlib.Data.Finset.Card
import Mathlib.Data.List.DropRight

/-!
# Programs and what they mean

A program is the list of its statements: the lines that are not blank, normalised, each with its
number in the source.  What a program means is said here without any pass over it.

* `Program.ofText`: the program of a source text.
* `Program.instructions`: the statements that are not label declarations.
* `Program.address`: what a symbol stands for.  A label stands for the number of instructions before
  its last declaration (`labelAddress?`), any other predefined name for its predefined address, and
  every other name is a variable, which stands for 16 and the number of variables used before it
  (`variableOrdinal`).
* `Program.instruction`, `Program.digits`: the machine instruction of a line, and its word in
  digits.
* `Program.command`: a statement with all that a run finds out about it.
* `Program.gatherDiagnostics`, `resolveDiagnostics`, `encodeDiagnostics`: the problems of a program,
  in the order in which the three passes meet them.

The passes go through a program from the front, so each notion comes with a lemma on what one more
statement at the end changes.
-/

namespace HackAssembly

/-! ## Statements -/

/-- A line that is not blank: its number and its normalised form. -/
structure Statement where
  line : Nat
  content : Bytes
  deriving DecidableEq

def Statement.label? (st : Statement) : Option Bytes := declaredLabel? st.content

def Statement.diagnostic (st : Statement) (problem : Problem) : Diagnostic :=
  { line := st.line, content := st.content, problem }

/-- The name that an instruction `@name` uses. -/
def usedName? : Bytes → Option Bytes
  | 0x40 :: name => if Symbol.isSymbol name then some name else none
  | _ => none

theorem usedName?_of_symbol {content : Bytes} (h : Kind.ofContent content = .symbol) :
    usedName? content = some (content.drop 1) := by
  unfold Kind.ofContent at h
  split at h
  · rw [usedName?]
    split at h
    · next hs => rw [if_pos hs]; rfl
    · split at h <;> simp at h
  · simp at h

theorem usedName?_of_ne_symbol {content : Bytes} (h : Kind.ofContent content ≠ .symbol) :
    usedName? content = none := by
  unfold usedName?
  split
  · next name =>
    rw [if_neg]
    intro hs
    exact h (by rw [Kind.ofContent, if_pos hs])
  · rfl

def usedNames (l : List Statement) : List Bytes := l.filterMap fun st => usedName? st.content

/-! ## Programs -/

/-- The statements of a source, in order. -/
abbrev Program := List Statement

namespace Program

/-- The program of a list of lines, which are numbered from one. -/
def ofLines (ls : List Bytes) : Program :=
  ((ls.map normalise).zipIdx 1).filterMap fun (content, line) =>
    if content = [] then none else some { line, content }

def ofText (s : Bytes) : Program := ofLines (lines s)

/-- The statements that are not label declarations. -/
def instructions (p : Program) : List Statement := p.filter fun st => st.label?.isNone

/-- The part of a program that ends with the last declaration of a label. -/
def upToLabel (p : Program) (name : Bytes) : Program :=
  p.rdropWhile fun st => st.label? != some name

def labelAddress? (p : Program) (name : Bytes) : Option Nat :=
  if p.upToLabel name = [] then none else some (instructions (p.upToLabel name)).length

/-- The low fifteen bits of an address, as the table holds them. -/
def wrapped (n : Nat) : Address := (n % (largestAddress + 1)).toUInt16

/-- What a name is bound to before any variable is, if it is bound then: it is a label or it is
predefined. -/
def knownAddress? (p : Program) (name : Bytes) : Option Address :=
  ((p.labelAddress? name).map wrapped).or (SymbolTable.predefined.address? name)

def isKnown (p : Program) (name : Bytes) : Bool :=
  (p.labelAddress? name).isSome || SymbolTable.predefined.contains name

def uses (p : Program) : List Bytes := usedNames p.instructions

def unknowns (known : Bytes → Bool) (names : List Bytes) : Finset Bytes :=
  (names.filter fun name => !known name).toFinset

/-- The number of distinct names that are not known and occur before the first occurrence of a
name. -/
def ordinal (known : Bytes → Bool) (names : List Bytes) (name : Bytes) : Nat :=
  (unknowns known (names.takeWhile (· != name))).card

/-- The number of variables whose first use precedes the first use of a name. -/
def variableOrdinal (p : Program) (name : Bytes) : Nat := ordinal p.isKnown p.uses name

def address (p : Program) (name : Bytes) : Nat :=
  match p.labelAddress? name, SymbolTable.predefined.address? name with
  | some count, _ => count
  | none, some address => address.toNat
  | none, none => firstVariable + p.variableOrdinal name

def instruction (p : Program) (content : Bytes) : Instruction :=
  match Kind.ofContent content with
  | .symbol => .address (BitVec.ofNat 15 (p.address (content.drop 1)))
  | .constant => .address (BitVec.ofNat 15 (Decimal.value (content.drop 1)))
  | .computation => Computation.instruction content

/-- The word of a line in digits: `0` and the low fifteen bits of the address or the constant, or
the word of the computation. -/
def digits (p : Program) (content : Bytes) : Bytes :=
  match Kind.ofContent content with
  | .symbol => 0x30 :: Binary.render (BitVec.ofNat 15 (p.address (content.drop 1)))
  | .constant => 0x30 :: Binary.render (BitVec.ofNat 15 (Decimal.value (content.drop 1)))
  | .computation => Binary.render (Computation.instruction content).encode

/-- The command of an instruction after a whole run. -/
def command (p : Program) (st : Statement) : Command where
  kind := Kind.ofContent st.content
  code := some (p.instruction st.content).encode
  line := st.line
  content := st.content

/-! ## Problems -/

/-- What the elements of a list contribute, each in view of the ones before it. -/
def along {α β : Type} (f : List α → α → List β) (l : List α) : List β :=
  l.zipIdx.flatMap fun (x, i) => f (l.take i) x

/-- The problems of a statement in the first pass: a label behind too many instructions, or the
start of a declaration without its end. -/
def gatherProblems (earlier : Program) (st : Statement) : List Problem :=
  match st.label? with
  | some _ => if largestAddress < (instructions earlier).length then [.addressTooLarge] else []
  | none => if opensLabel st.content then [.labelForm] else []

/-- The problems of an instruction in the second pass: a new variable behind too many others, or an
operand that is neither a symbol nor a numeral. -/
def resolveProblems (known : Bytes → Bool) (earlier : List Statement) (st : Statement) :
    List Problem :=
  match usedName? st.content with
  | some name =>
    if known name || (usedNames earlier).contains name then []
    else if largestAddress < firstVariable + (unknowns known (usedNames earlier)).card then
      [.addressTooLarge]
    else []
  | none =>
    if opensAddress st.content && Kind.ofContent st.content == .computation then [.operandForm]
    else []

/-- The problems of an instruction in the third pass: a constant that is too large, or the fields of
a computation that cannot be read. -/
def encodeProblems (st : Statement) : List Problem :=
  match Kind.ofContent st.content with
  | .constant =>
    if largestAddress < Decimal.value (st.content.drop 1) then [.constantTooLarge] else []
  | .symbol => []
  | .computation => Computation.problems st.content

def gatherDiagnostics (p : Program) : List Diagnostic :=
  along (fun earlier st => (gatherProblems earlier st).map st.diagnostic) p

def resolveDiagnostics (p : Program) : List Diagnostic :=
  along (fun earlier st => (resolveProblems p.isKnown earlier st).map st.diagnostic) p.instructions

def encodeDiagnostics (p : Program) : List Diagnostic :=
  p.instructions.flatMap fun st => (encodeProblems st).map st.diagnostic

/-! ## One more statement -/

theorem ofLines_concat (ls : List Bytes) (l : Bytes) :
    ofLines (ls ++ [l]) = ofLines ls
      ++ if normalise l = [] then [] else [{ line := ls.length + 1, content := normalise l }] := by
  rw [ofLines, List.map_append, List.zipIdx_append, List.filterMap_append, ofLines]
  congr 1
  simp only [List.map_cons, List.map_nil, List.zipIdx_cons, List.zipIdx_nil, List.filterMap_cons,
    List.filterMap_nil, List.length_map]
  split
  · next h => rw [if_pos (by simpa using h)]
  · next h =>
    split at h
    · simp at h
    · next hne =>
      rw [if_neg hne, Nat.add_comm, ← Option.some.inj h]

theorem content_ofLines (ls : List Bytes) :
    (ofLines ls).map Statement.content = (ls.map normalise).filter (· ≠ []) := by
  induction ls using List.reverseRecOn with
  | nil => rfl
  | append_singleton ls l ih =>
    rw [ofLines_concat, List.map_append, ih, List.map_append, List.filter_append]
    by_cases hblank : normalise l = [] <;> simp [hblank]

theorem instructions_concat (p : Program) (st : Statement) :
    instructions (p ++ [st]) = p.instructions ++ if st.label?.isNone then [st] else [] := by
  rw [instructions, List.filter_append, List.filter_singleton, instructions]
  cases st.label?.isNone <;> rfl

theorem upToLabel_concat (p : Program) (st : Statement) (name : Bytes) :
    upToLabel (p ++ [st]) name = if st.label? = some name then p ++ [st] else p.upToLabel name := by
  rw [upToLabel, List.rdropWhile_concat, upToLabel]
  by_cases h : st.label? = some name <;> simp [h]

/-- A declaration moves its label behind all instructions so far and leaves the other ones alone. -/
theorem labelAddress?_concat (p : Program) (st : Statement) (name : Bytes) :
    labelAddress? (p ++ [st]) name
      = if st.label? = some name then some p.instructions.length else p.labelAddress? name := by
  rw [labelAddress?, upToLabel_concat]
  by_cases h : st.label? = some name
  · simp [h, instructions_concat]
  · rw [if_neg h, if_neg h]
    rfl

theorem knownAddress?_concat (p : Program) (st : Statement) (name : Bytes) :
    knownAddress? (p ++ [st]) name
      = if st.label? = some name then some (wrapped p.instructions.length)
        else p.knownAddress? name := by
  rw [knownAddress?, labelAddress?_concat]
  split
  · rfl
  · rfl

theorem usedNames_concat (l : List Statement) (st : Statement) :
    usedNames (l ++ [st]) = usedNames l ++ (usedName? st.content).toList := by
  rw [usedNames, List.filterMap_append, usedNames]
  cases h : usedName? st.content <;> simp [h]

theorem along_concat {α β : Type} (f : List α → α → List β) (l : List α) (x : α) :
    along f (l ++ [x]) = along f l ++ f l x := by
  rw [along, List.zipIdx_append, List.flatMap_append, along]
  congr 1
  · -- the elements before the last one still have the same ones before them
    refine List.flatMap_congr fun ⟨y, i⟩ hy => ?_
    have hlt : i < l.length := List.snd_lt_of_mem_zipIdx hy
    dsimp only
    rw [List.take_append_of_le_length (Nat.le_of_lt hlt)]
  · simp

theorem isKnown_eq_isSome (p : Program) (name : Bytes) :
    p.isKnown name = (p.knownAddress? name).isSome := by
  rw [isKnown, knownAddress?, SymbolTable.contains_eq_isSome, Option.isSome_or, Option.isSome_map]

/-! ## Names in the order of their first use -/

theorem mem_unknowns {known : Bytes → Bool} {names : List Bytes} {name : Bytes} :
    name ∈ unknowns known names ↔ name ∈ names ∧ known name = false := by
  simp [unknowns]

/-- A name counts once, where it is first used. -/
theorem card_unknowns_concat (known : Bytes → Bool) (names : List Bytes) (name : Bytes) :
    (unknowns known (names ++ [name])).card
      = (unknowns known names).card + if known name || names.contains name then 0 else 1 := by
  have hmem : ∀ other, other ∈ unknowns known (names ++ [name])
      ↔ other ∈ unknowns known names ∨ other = name ∧ known name = false := by
    intro other
    simp only [mem_unknowns, List.mem_append, List.mem_singleton]
    constructor
    · rintro ⟨hin | rfl, hk⟩
      · exact Or.inl ⟨hin, hk⟩
      · exact Or.inr ⟨rfl, hk⟩
    · rintro (⟨hin, hk⟩ | ⟨rfl, hk⟩)
      · exact ⟨Or.inl hin, hk⟩
      · exact ⟨Or.inr rfl, hk⟩
  by_cases h : name ∈ unknowns known names ∨ known name = true
  · have hsame : unknowns known (names ++ [name]) = unknowns known names := by
      ext other
      rw [hmem]
      constructor
      · rintro (hin | ⟨rfl, hk⟩)
        · exact hin
        · exact h.resolve_right (by simp [hk])
      · exact Or.inl
    have hcount : (known name || names.contains name) = true := by
      rcases h with h | h
      · simp [(mem_unknowns.1 h).1]
      · simp [h]
    rw [hsame, if_pos hcount, Nat.add_zero]
  · rw [not_or, Bool.not_eq_true] at h
    have hnew : unknowns known (names ++ [name]) = insert name (unknowns known names) := by
      ext other
      rw [hmem, Finset.mem_insert, or_comm]
      simp [h.2]
    have hcount : ¬ (known name || names.contains name) = true := by
      intro hc
      exact h.1 (mem_unknowns.2 ⟨by simpa [h.2] using hc, h.2⟩)
    rw [hnew, Finset.card_insert_of_notMem h.1, if_neg hcount]

theorem takeWhile_append_of_mem {names : List Bytes} {name : Bytes} (h : name ∈ names)
    (later : List Bytes) :
    (names ++ later).takeWhile (· != name) = names.takeWhile (· != name) := by
  obtain ⟨before, after, rfl, hbefore⟩ := List.eq_append_cons_of_mem h
  rw [List.append_assoc, List.cons_append, takeWhile_ne_append_cons hbefore,
    takeWhile_ne_append_cons hbefore]

/-- Later uses do not change the ordinal of a name that has been used. -/
theorem ordinal_append_of_mem {known : Bytes → Bool} {names : List Bytes} {name : Bytes}
    (h : name ∈ names) (later : List Bytes) :
    ordinal known (names ++ later) name = ordinal known names name := by
  rw [ordinal, takeWhile_append_of_mem h, ordinal]

/-- A name that is used for the first time comes after all unknown names so far. -/
theorem ordinal_concat_self {known : Bytes → Bool} {names : List Bytes} {name : Bytes}
    (h : name ∉ names) :
    ordinal known (names ++ [name]) name = (unknowns known names).card := by
  rw [ordinal, takeWhile_ne_append_cons h]

/-! ## Fifteen bits -/

theorem toUInt16_emod (n : Nat) :
    ((n : Int) % (largestAddress + 1)).toNat.toUInt16 = wrapped n := rfl

theorem toNat_wrapped (n : Nat) : (wrapped n).toNat = n % 32768 := by
  rw [wrapped, Nat.toUInt16, UInt16.toNat_ofNat', largestAddress]
  omega

theorem ofAddress_wrapped (n : Nat) :
    Word.ofAddress (wrapped n) = (Instruction.address (BitVec.ofNat 15 n)).encode := by
  have hbits : (wrapped n).toBitVec.setWidth 15 = BitVec.ofNat 15 n := by
    apply BitVec.eq_of_toNat_eq
    rw [BitVec.toNat_setWidth, UInt16.toNat_toBitVec, wrapped, BitVec.toNat_ofNat]
    simp [largestAddress]
  rw [Word.ofAddress, hbits]

theorem render_encode_address (v : BitVec 15) :
    Binary.render (Instruction.address v).encode = 0x30 :: Binary.render v := by
  rw [Binary.render, List.range_succ_eq_map, List.map_cons, List.map_map, Binary.render]
  have htop : (Instruction.address v).encode.getMsbD 0 = false := by simp [Instruction.encode]
  have hrest : ∀ i, (Instruction.address v).encode.getMsbD (i + 1) = v.getMsbD i := by
    intro i
    simp [Instruction.encode, BitVec.getMsbD_setWidth]
  rw [htop]
  refine congrArg (0x30 :: ·) (List.map_congr_left fun i _ => ?_)
  rw [Function.comp_apply, hrest]

/-- The digits of a line are those of its machine instruction. -/
theorem digits_eq_render (p : Program) (content : Bytes) :
    p.digits content = Binary.render (p.instruction content).encode := by
  rw [digits, instruction]
  split <;> simp [render_encode_address]

theorem mem_of_address?_foldl_insert {entries : List (Bytes × Address)} {table : SymbolTable}
    {name : Bytes} {address : Address}
    (h : (entries.foldl (fun t e => t.insert e.1 e.2) table).address? name = some address) :
    (name, address) ∈ entries ∨ table.address? name = some address := by
  induction entries generalizing table with
  | nil => exact Or.inr h
  | cons e entries ih =>
    rcases ih h with hin | hin
    · exact Or.inl (List.mem_cons_of_mem _ hin)
    · rw [SymbolTable.address?_insert] at hin
      split at hin
      · next he =>
        rw [← he, ← Option.some.inj hin]
        exact Or.inl List.mem_cons_self
      · exact Or.inr hin

/-- The predefined addresses fit into fifteen bits. -/
theorem wrapped_predefined {name : Bytes} {address : Address}
    (h : SymbolTable.predefined.address? name = some address) :
    wrapped address.toNat = address := by
  have hsmall : ∀ e ∈ SymbolTable.predefinedEntries, wrapped e.2.toNat = e.2 := by decide
  rcases mem_of_address?_foldl_insert h with hin | hin
  · exact hsmall _ hin
  · simp [SymbolTable.empty, SymbolTable.address?] at hin

end Program

end HackAssembly
