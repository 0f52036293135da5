import HackAssembly.Instruction
import Mathlib.Data.List.Sublists

/-!
# Mnemonics

The texts of the three fields of a computation and their digits, as tables.

* `Comp.canonicalCodes`: the canonical spellings of the computations, each with its code.
* `Comp.aliases`: the spellings with exchanged operands, each with the canonical one.  They have the
  codes of these (`Comp.codes`), and with them there are thirty-seven spellings (`Comp.spellings`).
* `Jump.codes`: the mnemonics of the jumps, each with its code.
* `Dest.Names`: the words of the shape `A?M?D?`; the digits of a destination say which of the three
  letters it has (`Dest.places`).

The readers of fields are these tables: they understand the texts in them and no others
(`Comp.read?_eq_none`, `Dest.read?_eq_none`, `Jump.read?_eq_none`), and give what has the code there
(`Comp.lookup_codes`, `Dest.render_bits`, `Jump.lookup_codes`).
-/

namespace HackAssembly

/-! ## Computations -/

def Comp.canonicalCodes : List (Bytes × Bytes) :=
  [(ascii "0", ascii "0101010"), (ascii "1", ascii "0111111"), (ascii "-1", ascii "0111010"),
    (ascii "D", ascii "0001100"), (ascii "A", ascii "0110000"), (ascii "M", ascii "1110000"),
    (ascii "!D", ascii "0001101"), (ascii "!A", ascii "0110001"), (ascii "!M", ascii "1110001"),
    (ascii "-D", ascii "0001111"), (ascii "-A", ascii "0110011"), (ascii "-M", ascii "1110011"),
    (ascii "D+1", ascii "0011111"), (ascii "A+1", ascii "0110111"), (ascii "M+1", ascii "1110111"),
    (ascii "D-1", ascii "0001110"), (ascii "A-1", ascii "0110010"), (ascii "M-1", ascii "1110010"),
    (ascii "D+A", ascii "0000010"), (ascii "D+M", ascii "1000010"), (ascii "D-A", ascii "0010011"),
    (ascii "D-M", ascii "1010011"), (ascii "A-D", ascii "0000111"), (ascii "M-D", ascii "1000111"),
    (ascii "D&A", ascii "0000000"), (ascii "D&M", ascii "1000000"), (ascii "D|A", ascii "0010101"),
    (ascii "D|M", ascii "1010101")]

def Comp.aliases : List (Bytes × Bytes) :=
  [(ascii "1+D", ascii "D+1"), (ascii "1+A", ascii "A+1"), (ascii "1+M", ascii "M+1"),
    (ascii "A+D", ascii "D+A"), (ascii "M+D", ascii "D+M"), (ascii "A&D", ascii "D&A"),
    (ascii "M&D", ascii "D&M"), (ascii "A|D", ascii "D|A"), (ascii "M|D", ascii "D|M")]

/-- All spellings of the computations, each with its code. -/
def Comp.codes : List (Bytes × Bytes) :=
  canonicalCodes ++ aliases.filterMap fun (s, canonical) =>
    (canonicalCodes.lookup canonical).map fun code => (s, code)

/-- The thirty-seven spellings of computations, the canonical ones first. -/
def Comp.spellings : List Bytes := codes.map Prod.fst

/-- The canonical spelling of what a text spells; any other text is left as it is. -/
def Comp.canonical (s : Bytes) : Bytes := (aliases.lookup s).getD s

example : Comp.spellings.length = 37 := by decide

theorem Comp.canonicalCodes_eq :
    canonicalCodes = all.map fun c => (c.spelling, Binary.render c.bits) := by
  decide +kernel

theorem Comp.spellings_eq : spellings = all.map spelling ++ all.filterMap exchanged? := by
  decide +kernel

theorem Comp.read?_eq_none {s : Bytes} : read? s = none ↔ s ∉ spellings := by
  rw [read?, List.find?_eq_none, spellings_eq, List.mem_append, List.mem_map, List.mem_filterMap,
    not_or]
  constructor
  · intro h
    constructor
    · rintro ⟨c, hc, rfl⟩
      exact h c hc (by simp [isSpelledBy])
    · rintro ⟨c, hc, hs⟩
      exact h c hc (by simp [isSpelledBy, hs])
  · rintro ⟨hspelling, hexchanged⟩ c hc hs
    rcases (by simpa [isSpelledBy] using hs : c.spelling = s ∨ c.exchanged? = some s) with hs | hs
    · exact hspelling ⟨c, hc, hs⟩
    · exact hexchanged ⟨c, hc, hs⟩

/-- The table is the reader of spellings. -/
theorem Comp.lookup_codes (s : Bytes) :
    codes.lookup s = (read? s).map fun c => Binary.render c.bits := by
  by_cases hs : s ∈ spellings
  · have hall : ∀ s ∈ spellings, codes.lookup s = (read? s).map fun c => Binary.render c.bits := by
      decide +kernel
    exact hall s hs
  · rw [read?_eq_none.2 hs, Option.map_none, List.lookup_eq_none_iff]
    intro entry hentry
    rw [bne_iff_ne]
    intro heq
    exact hs (heq ▸ List.mem_map_of_mem hentry)

theorem Comp.canonical_spelling (c : Comp) : canonical c.spelling = c.spelling := by
  cases c <;> decide +kernel

theorem Comp.canonical_of_exchanged? {c : Comp} {s : Bytes} (h : c.exchanged? = some s) :
    canonical s = c.spelling := by
  cases c <;> cases h
  all_goals decide +kernel

theorem Comp.canonical_of_read? {c : Comp} {s : Bytes} (h : read? s = some c) :
    canonical s = c.spelling := by
  have hspelled : c.isSpelledBy s = true := by simpa using List.find?_some h
  rw [isSpelledBy, Bool.or_eq_true, beq_iff_eq, beq_iff_eq] at hspelled
  rcases hspelled with rfl | hexchanged
  · exact canonical_spelling c
  · exact canonical_of_exchanged? hexchanged

/-! ## Destinations -/

/-- A word of the shape `A?M?D?` that is not empty. -/
def Dest.Names (s : Bytes) : Prop := s ≠ [] ∧ s.Sublist (ascii "AMD")

def Dest.mnemonics : List Bytes :=
  [ascii "M", ascii "D", ascii "MD", ascii "A", ascii "AM", ascii "AD", ascii "AMD"]

/-- The digits of a destination: whether it has an `A`, a `D` and an `M`. -/
def Dest.places (s : Bytes) : Bytes :=
  (ascii "ADM").map fun place => if place ∈ s then 0x31 else 0x30

/-- The shape has seven words. -/
theorem Dest.names_iff {s : Bytes} : Names s ↔ s ∈ mnemonics := by
  constructor
  · intro ⟨hne, hsub⟩
    have hall : ∀ s ∈ (ascii "AMD").sublists, s ≠ [] → s ∈ mnemonics := by decide +kernel
    exact hall s (List.mem_sublists.2 hsub) hne
  · intro hs
    have hall : ∀ s ∈ mnemonics, s ≠ [] ∧ s.Sublist (ascii "AMD") := by decide +kernel
    exact hall s hs

theorem Dest.mnemonics_eq : mnemonics = proper.map spelling := by
  decide +kernel

theorem Dest.read?_eq_none {s : Bytes} : read? s = none ↔ s ∉ mnemonics := by
  rw [read?, List.find?_eq_none, mnemonics_eq, List.mem_map]
  simp

theorem Dest.exists_spelling_of_mem {s : Bytes} (h : s ∈ mnemonics) :
    ∃ dest : Dest, dest ≠ .nowhere ∧ s = dest.spelling := by
  rw [mnemonics_eq, List.mem_map] at h
  obtain ⟨dest, hdest, rfl⟩ := h
  refine ⟨dest, ?_, rfl⟩
  rintro rfl
  exact absurd hdest (by decide)

theorem Dest.render_bits {s : Bytes} {dest : Dest} (h : read? s = some dest) :
    Binary.render dest.bits = places s := by
  have hall : ∀ dest ∈ proper, Binary.render dest.bits = places dest.spelling := by decide +kernel
  have hspelling : dest.spelling = s := by simpa using List.find?_some h
  rw [hall dest (List.mem_of_find?_eq_some h), hspelling]

/-! ## Jumps -/

def Jump.codes : List (Bytes × Bytes) :=
  [(ascii "JGT", ascii "001"), (ascii "JEQ", ascii "010"), (ascii "JGE", ascii "011"),
    (ascii "JLT", ascii "100"), (ascii "JNE", ascii "101"), (ascii "JLE", ascii "110"),
    (ascii "JMP", ascii "111")]

def Jump.mnemonics : List Bytes := codes.map Prod.fst

theorem Jump.mnemonics_eq : mnemonics = proper.map spelling := by
  decide +kernel

theorem Jump.read?_eq_none {s : Bytes} : read? s = none ↔ s ∉ mnemonics := by
  rw [read?, List.find?_eq_none, mnemonics_eq, List.mem_map]
  simp

theorem Jump.exists_spelling_of_mem {s : Bytes} (h : s ∈ mnemonics) :
    ∃ jump : Jump, jump ≠ .never ∧ s = jump.spelling := by
  rw [mnemonics_eq, List.mem_map] at h
  obtain ⟨jump, hjump, rfl⟩ := h
  refine ⟨jump, ?_, rfl⟩
  rintro rfl
  exact absurd hjump (by decide)

theorem Jump.lookup_codes {jump : Jump} (h : jump ≠ .never) :
    codes.lookup jump.spelling = some (Binary.render jump.bits) := by
  rcases jump with ⟨_ | _, _ | _, _ | _⟩
  · exact absurd rfl h
  all_goals decide +kernel

end HackAssembly
