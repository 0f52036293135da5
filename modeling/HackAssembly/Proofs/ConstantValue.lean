import HackAssembly.Assembler.State
import HackAssembly.Constant
import Mathlib.Data.List.Induction
import Mathlib.Data.Nat.Digits.Defs
import Mathlib.Tactic.Common

/-!
# The value of a constant

Reading a constant digit by digit keeps `Reading.Of`: the low bits are those of the number read so
far, the flag says whether that number is too large, and as long as it is not, the number itself is
known.  So at the end `Constant.read` gives the decimal value modulo `2 ^ 15` and whether it is
larger than `2 ^ 15 - 1` (`read_eq`), however long the constant is.

The same relation bounds both sums before each digit, so that none of the operations on 32-bit words
leaves their range (`Reading.Of.unwrapped`).
-/

namespace HackAssembly.Constant

/-- What is known about a constant when the digits so far denote `n`. -/
structure Reading.Of (n : Nat) (r : Reading) : Prop where
  low : r.low.toNat = n % 32768
  tooLarge : r.tooLarge = decide (32767 < n)
  value : r.tooLarge = false → r.value.toNat = n

theorem Reading.of_zero : Reading.Of 0 {} := ⟨rfl, rfl, fun _ => rfl⟩

theorem toNat_digit {b : UInt8} (h : Byte.isDigit b = true) :
    (b - 0x30).toUInt32.toNat = b.toNat - 0x30 ∧ b.toNat - 0x30 < 10 := by
  obtain ⟨hlo, hhi⟩ : 0x30 ≤ b ∧ b ≤ 0x39 := by simpa [Byte.isDigit] using h
  have hlo' : 48 ≤ b.toNat := UInt8.le_iff_toNat_le.1 hlo
  have hhi' : b.toNat ≤ 57 := UInt8.le_iff_toNat_le.1 hhi
  refine ⟨?_, by omega⟩
  rw [UInt8.toNat_toUInt32, UInt8.toNat_sub_of_le _ _ hlo]
  rfl

theorem toNat_mul_ten {w : UInt32} (hw : w.toNat < 32768) : (w * 10).toNat = w.toNat * 10 := by
  rw [UInt32.toNat_mul, show (10 : UInt32).toNat = 10 from rfl]
  omega

/-- Ten times a small word and a digit do not wrap. -/
theorem toNat_next {w d : UInt32} (hw : w.toNat < 32768) (hd : d.toNat < 10) :
    (w * 10 + d).toNat = w.toNat * 10 + d.toNat := by
  rw [UInt32.toNat_add, toNat_mul_ten hw]
  omega

theorem toNat_and_largest (w : UInt32) : (w &&& largest).toNat = w.toNat % 32768 := by
  rw [UInt32.toNat_and]
  exact Nat.and_two_pow_sub_one_eq_mod w.toNat 15

theorem Reading.Of.low_lt {n : Nat} {r : Reading} (hr : r.Of n) : r.low.toNat < 32768 := by
  rw [hr.low]
  omega

theorem Reading.Of.value_lt {n : Nat} {r : Reading} (hr : r.Of n) (h : r.tooLarge = false) :
    r.value.toNat < 32768 := by
  have hn : n ≤ 32767 := by simpa [h] using hr.tooLarge
  rw [hr.value h]
  omega

/-- **One more digit** multiplies the number by ten and adds the digit. -/
theorem Reading.Of.next {n : Nat} {r : Reading} (hr : r.Of n) {b : UInt8}
    (hb : Byte.isDigit b = true) : (r.next b).Of (n * 10 + (b.toNat - 0x30)) := by
  obtain ⟨hdigit, hten⟩ := toNat_digit hb
  have hlow : ((r.low * 10 + (b - 0x30).toUInt32) &&& largest).toNat
      = (n * 10 + (b.toNat - 0x30)) % 32768 := by
    rw [toNat_and_largest, toNat_next hr.low_lt (by rw [hdigit]; omega), hr.low, hdigit]
    omega
  rw [Reading.next]
  by_cases htoo : r.tooLarge = true
  · -- a number that is too large stays so
    have hn : 32767 < n := by simpa [htoo] using hr.tooLarge
    rw [if_pos htoo]
    refine ⟨hlow, ?_, fun hfalse => absurd (htoo.symm.trans hfalse) (by decide)⟩
    rw [htoo, eq_comm, decide_eq_true_iff]
    omega
  · have hfalse : r.tooLarge = false := by simpa using htoo
    have hvalue : (r.value * 10 + (b - 0x30).toUInt32).toNat = n * 10 + (b.toNat - 0x30) := by
      rw [toNat_next (hr.value_lt hfalse) (by rw [hdigit]; omega), hr.value hfalse, hdigit]
    rw [if_neg htoo]
    refine ⟨hlow, ?_, fun _ => hvalue⟩
    rw [decide_eq_decide, UInt32.lt_iff_toNat_lt, hvalue]
    rfl

theorem Reading.Of.foldl {n : Nat} {r : Reading} (hr : r.Of n) {digits : Bytes}
    (hdigits : ∀ b ∈ digits, Byte.isDigit b = true) :
    (digits.foldl Reading.next r).Of
      (digits.foldl (fun n b => n * 10 + (b.toNat - 0x30)) n) := by
  induction digits generalizing n r with
  | nil => exact hr
  | cons b digits ih =>
    exact ih (hr.next (hdigits b (by simp))) fun c hc => hdigits c (by simp [hc])

/-- **Reading a constant** gives its value modulo `2 ^ 15` and whether it is larger than that. -/
theorem read_eq {digits : Bytes} (h : ∀ b ∈ digits, Byte.isDigit b = true) :
    read digits = ((Decimal.value digits % (largestAddress + 1)).toUInt16,
      decide (largestAddress < Decimal.value digits)) := by
  have hr := Reading.of_zero.foldl h
  rw [read, hr.tooLarge]
  refine Prod.ext ?_ rfl
  apply UInt16.toNat.inj
  rw [UInt32.toNat_toUInt16, hr.low]
  simp [Decimal.value, largestAddress]

/-! ## Words that do not wrap -/

/-- No operation that takes a digit into account leaves the range of its words: the digit is not
less than `0`, and the products and sums are below `2 ^ 32`.  The second sum counts only as long as
it grows. -/
structure Reading.Unwrapped (r : Reading) (b : UInt8) : Prop where
  digit : 0x30 ≤ b.toNat
  low_mul : r.low.toNat * 10 < 2 ^ 32
  low_add : (r.low * 10).toNat + (b - 0x30).toUInt32.toNat < 2 ^ 32
  value_mul : r.tooLarge = false → r.value.toNat * 10 < 2 ^ 32
  value_add : r.tooLarge = false → (r.value * 10).toNat + (b - 0x30).toUInt32.toNat < 2 ^ 32

theorem Reading.Of.unwrapped {n : Nat} {r : Reading} (hr : r.Of n) {b : UInt8}
    (hb : Byte.isDigit b = true) : r.Unwrapped b := by
  obtain ⟨hdigit, hten⟩ := toNat_digit hb
  have hfirst : 0x30 ≤ b := by
    rw [Byte.isDigit, Bool.and_eq_true, decide_eq_true_iff] at hb
    exact hb.1
  have hlow := hr.low_lt
  refine ⟨UInt8.le_iff_toNat_le.1 hfirst, by omega, ?_, fun hfalse => ?_, fun hfalse => ?_⟩
  · rw [toNat_mul_ten hlow, hdigit]
    omega
  · have hvalue := hr.value_lt hfalse
    omega
  · have hvalue := hr.value_lt hfalse
    rw [toNat_mul_ten hvalue, hdigit]
    omega

/-! ## Positions -/

/-- The value of a text of digits is the sum of its digits, each times the power of ten of its
place. -/
theorem value_eq_ofDigits (digits : Bytes) :
    Decimal.value digits = Nat.ofDigits 10 (digits.reverse.map fun b => b.toNat - 0x30) := by
  induction digits using List.reverseRecOn with
  | nil => rfl
  | append_singleton digits b ih =>
    rw [Decimal.value_append_singleton, ih, List.reverse_append, List.reverse_singleton,
      List.singleton_append, List.map_cons, Nat.ofDigits_cons]
    omega

/-- **A constant is read exactly**, however long it is and with whatever zeros in front.  Its digits
denote a number by their places; what is read is that number modulo `2 ^ 15` and whether it is
larger than `2 ^ 15 - 1`, and on the way no operation on words wraps, at whichever digit. -/
theorem constant_is_read_exactly (digits : Bytes)
    (h : ∀ b ∈ digits, Byte.isDigit b = true) :
    (read digits).1.toNat
        = Nat.ofDigits 10 (digits.reverse.map fun b => b.toNat - 0x30) % 32768 ∧
      ((read digits).2 = true
        ↔ 32767 < Nat.ofDigits 10 (digits.reverse.map fun b => b.toNat - 0x30)) ∧
      ∀ before b after, digits = before ++ b :: after →
        (before.foldl Reading.next {}).Unwrapped b := by
  have hread := read_eq h
  rw [← value_eq_ofDigits, hread]
  refine ⟨?_, decide_eq_true_iff, ?_⟩
  · show (Decimal.value digits % 32768).toUInt16.toNat = Decimal.value digits % 32768
    have hlt : Decimal.value digits % 32768 < 32768 := Nat.mod_lt _ (by decide)
    exact UInt16.toNat_ofNat_of_lt (Nat.lt_trans hlt (by decide))
  · intro before b after hsplit
    have hbefore : ∀ c ∈ before, Byte.isDigit c = true := by
      intro c hc
      exact h c (by rw [hsplit]; exact List.mem_append_left _ hc)
    have hb : Byte.isDigit b = true := h b (by rw [hsplit]; simp)
    exact (Reading.of_zero.foldl hbefore).unwrapped hb

/-- Zeros in front, and a number too large whose last fifteen bits are all zero. -/
theorem constant_is_read_exactly_multiple :
    (∀ b ∈ ascii "0098304", Byte.isDigit b = true) ∧
      (read (ascii "0098304")).1 = 0 ∧ (read (ascii "0098304")).2 = true ∧
      ((ascii "009830").foldl Reading.next {}).Unwrapped 0x34 := by
  have hdigits : ∀ b ∈ ascii "0098304", Byte.isDigit b = true := List.all_eq_true.1 (by decide)
  obtain ⟨hlow, hlarge, hwords⟩ := constant_is_read_exactly (ascii "0098304") hdigits
  refine ⟨hdigits, UInt16.toNat.inj (hlow.trans (by decide)), hlarge.2 (by decide), ?_⟩
  exact hwords (ascii "009830") 0x34 [] (by decide)

end HackAssembly.Constant
