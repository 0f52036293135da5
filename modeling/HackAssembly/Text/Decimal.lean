import HackAssembly.Text.Byte

/-!
# Decimal numerals

Numbers are written in decimal, without leading zeros and with a minus sign for negative ones.  In
the other direction `Decimal.value` reads a text of digits as an exact natural number; it accepts
leading zeros, and the empty text is zero.  What is written is a numeral (`isNumeral_ofNat`), and
reads back as the number (`value_ofNat`).
-/

namespace HackAssembly.Decimal

/-- A natural number in decimal, without leading zeros. -/
def ofNat (n : Nat) : Bytes := (Nat.toDigits 10 n).map fun c => c.toNat.toUInt8

def ofInt : Int → Bytes
  | .ofNat n => ofNat n
  | .negSucc n => 0x2D :: ofNat (n + 1)

/-- A text of at least one digit and nothing else. -/
def isNumeral (s : Bytes) : Bool := !s.isEmpty && s.all Byte.isDigit

def value (s : Bytes) : Nat := s.foldl (fun n b => n * 10 + (b.toNat - 0x30)) 0

/-! ## Writing and reading -/

theorem toNat_digitChar {d : Nat} (h : d < 10) :
    d.digitChar.toNat.toUInt8.toNat = 0x30 + d := by
  revert d
  decide

theorem isDigit_digitChar {d : Nat} (h : d < 10) :
    Byte.isDigit d.digitChar.toNat.toUInt8 = true := by
  revert d
  decide

/-- The last digit stands behind the numeral of the other ones. -/
theorem ofNat_eq (n : Nat) :
    ofNat n = if n < 10 then [n.digitChar.toNat.toUInt8]
      else ofNat (n / 10) ++ [(n % 10).digitChar.toNat.toUInt8] := by
  rw [ofNat, Nat.toDigits_eq_if (by decide)]
  split <;> simp [ofNat]

theorem isNumeral_ofNat (n : Nat) : isNumeral (ofNat n) = true := by
  induction n using Nat.strongRecOn with
  | ind n ih =>
    rw [ofNat_eq]
    split
    · next h => simp [isNumeral, isDigit_digitChar h]
    · next h =>
      have hinit := ih (n / 10) (by omega)
      have hlast := isDigit_digitChar (Nat.mod_lt n (show 0 < 10 by decide))
      simp_all [isNumeral]

theorem value_append_singleton (s : Bytes) (b : UInt8) :
    value (s ++ [b]) = value s * 10 + (b.toNat - 0x30) := by
  simp [value]

/-- **Reading back what was written** gives the same number. -/
theorem value_ofNat (n : Nat) : value (ofNat n) = n := by
  induction n using Nat.strongRecOn with
  | ind n ih =>
    rw [ofNat_eq]
    split
    · next h =>
      simp only [value, List.foldl, toNat_digitChar h]
      omega
    · next h =>
      rw [value_append_singleton, ih (n / 10) (by omega),
        toNat_digitChar (Nat.mod_lt n (by decide))]
      omega

end HackAssembly.Decimal
