import HackAssembly.Text.Byte

/-!
# Destinations

A computation's result goes to any of the registers `A` and `D` and the memory cell `M`.  The code
of a destination has a bit for each, in the order `A`, `D`, `M`; its spelling names them in the
order `A`, `M`, `D`.  The empty destination is written by leaving it out, so the empty text spells
none.
-/

namespace HackAssembly

/-- The set of places that a result goes to. -/
structure Dest where
  a : Bool
  d : Bool
  m : Bool
  deriving DecidableEq

namespace Dest

/-- The destination of a result that is not kept. -/
def nowhere : Dest := ⟨false, false, false⟩

/-- The destinations with at least one place, in the order of their codes. -/
def proper : List Dest :=
  [⟨false, false, true⟩, ⟨false, true, false⟩, ⟨false, true, true⟩, ⟨true, false, false⟩,
    ⟨true, false, true⟩, ⟨true, true, false⟩, ⟨true, true, true⟩]

def bits (dest : Dest) : BitVec 3 := BitVec.ofBoolListBE [dest.a, dest.d, dest.m]

def ofBits (code : BitVec 3) : Dest := ⟨code.getMsbD 0, code.getMsbD 1, code.getMsbD 2⟩

/-- The spelling of a destination: its places in the order `A`, `M`, `D`. -/
def spelling (dest : Dest) : Bytes :=
  (if dest.a then ascii "A" else []) ++ (if dest.m then ascii "M" else [])
    ++ (if dest.d then ascii "D" else [])

def read? (s : Bytes) : Option Dest := proper.find? (·.spelling == s)

/-! ## Codes and spellings -/

theorem ofBits_bits (dest : Dest) : ofBits dest.bits = dest := by
  rcases dest with ⟨_ | _, _ | _, _ | _⟩ <;> rfl

theorem bits_ofBits (code : BitVec 3) : (ofBits code).bits = code := by
  revert code
  decide

theorem read?_spelling {dest : Dest} (h : dest ≠ nowhere) : read? dest.spelling = some dest := by
  rcases dest with ⟨_ | _, _ | _, _ | _⟩
  · exact absurd rfl h
  all_goals rfl

end Dest

end HackAssembly
