import HackAssembly.Text.Byte

/-!
# Binary numerals

A bit vector is written with one digit `0` or `1` per bit, the most significant one first.  In the
other direction `Binary.value` gives the bit vector that a text of such digits denotes, one bit for
each digit.  Each is the inverse of the other (`value_render`, `render_value`).
-/

namespace HackAssembly.Binary

def digit (bit : Bool) : UInt8 := if bit then 0x31 else 0x30

def isDigit (b : UInt8) : Bool := b == 0x30 || b == 0x31

/-- A bit vector in digits, the most significant bit first. -/
def render {n : Nat} (bits : BitVec n) : Bytes :=
  (List.range n).map fun i => digit (bits.getMsbD i)

/-- The bit vector of `n` bits that a text of `n` digits denotes. -/
def value (n : Nat) (s : Bytes) : BitVec n :=
  (BitVec.ofBoolListBE (s.map (· == 0x31))).setWidth n

/-! ## Writing and reading -/

@[simp]
theorem length_render {n : Nat} (bits : BitVec n) : (render bits).length = n := by
  simp [render]

theorem isDigit_of_mem_render {n : Nat} {bits : BitVec n} {b : UInt8} (h : b ∈ render bits) :
    isDigit b = true := by
  obtain ⟨i, -, rfl⟩ := List.mem_map.1 h
  cases bits.getMsbD i <;> decide

theorem digit_beq_one (bit : Bool) : (digit bit == 0x31) = bit := by
  cases bit <;> rfl

theorem digit_beq_of_isDigit {b : UInt8} (h : isDigit b = true) : digit (b == 0x31) = b := by
  rcases (by simpa [isDigit] using h : b = 0x30 ∨ b = 0x31) with rfl | rfl <;> rfl

/-- **Reading back what was written** gives the same bits. -/
theorem value_render {n : Nat} (bits : BitVec n) : value n (render bits) = bits := by
  apply BitVec.eq_of_getLsbD_eq
  intro i hi
  have hlt : n - 1 - i < n := by omega
  have hback : n - 1 - (n - 1 - i) = i := by omega
  simp [value, render, digit_beq_one, BitVec.getMsbD, hi, hlt, hback]

/-- **Writing what was read** gives the same digits. -/
theorem render_value {n : Nat} {s : Bytes} (hn : s.length = n) (hs : s.all isDigit = true) :
    render (value n s) = s := by
  subst hn
  apply List.ext_getElem (by simp)
  intro i h1 h2
  have hd := List.all_eq_true.1 hs s[i] (List.getElem_mem h2)
  have hlt : s.length - 1 - i < s.length := by omega
  have hback : s.length - 1 - (s.length - 1 - i) = i := by omega
  simp [render, value, BitVec.getMsbD, h2, hlt, hback, digit_beq_of_isDigit hd]

/-- Bits laid end to end are written one after the other. -/
theorem render_append {m n : Nat} (high : BitVec m) (low : BitVec n) :
    render (high ++ low) = render high ++ render low := by
  simp only [render, List.range_add, List.map_append, List.map_map, BitVec.getMsbD_append]
  congr 1
  · refine List.map_congr_left fun i hi => ?_
    rw [if_neg (by simpa using hi)]
  · refine List.map_congr_left fun i _ => ?_
    simp

end HackAssembly.Binary
