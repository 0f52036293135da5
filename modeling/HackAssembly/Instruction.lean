import HackAssembly.Instruction.Comp
import HackAssembly.Instruction.Dest
import HackAssembly.Instruction.Jump
import HackAssembly.Text.Binary
import HackAssembly.Text.Decimal

/-!
# Instructions and words

An instruction either loads a 15-bit value into the address register or computes, stores and jumps.
It has two forms outside the machine: a word of sixteen bits and a canonical text.

* `Instruction.encode`: the word.  An address instruction starts with the bit `0`, a computing one
  with `111` and then the codes of its computation, destination and jump (`Word.ofFields`).
* `Instruction.decode`: the instruction of a word; it refuses a word that starts with `1` but not
  with `111`, and one whose computation code belongs to no computation.
* `Instruction.render`: the canonical text, `@value` or `dest=comp;jump` with an empty destination
  and a missing jump left out.

Words and instructions go with each other one to one: decoding gives back the instruction that was
encoded (`decode_encode`), and whatever can be decoded is the word of its instruction
(`encode_of_decode`).
-/

namespace HackAssembly

abbrev Word := BitVec 16

def Word.ofFields (comp : BitVec 7) (dest jump : BitVec 3) : Word :=
  0b111#3 ++ comp ++ dest ++ jump

/-- An instruction of the machine. -/
inductive Instruction where
  | address (value : BitVec 15)
  | compute (comp : Comp) (dest : Dest) (jump : Jump)
  deriving DecidableEq

inductive Undecodable where
  /-- The word starts with `1`, but not with `111`. -/
  | header
  /-- The code of the computation belongs to none. -/
  | comp (code : BitVec 7)
  deriving DecidableEq

namespace Instruction

def encode : Instruction → Word
  | address value => value.setWidth 16
  | compute comp dest jump => .ofFields comp.bits dest.bits jump.bits

def decode (word : Word) : Except Undecodable Instruction :=
  if word.msb then
    if word.extractLsb' 13 2 == 0b11#2 then
      let code := word.extractLsb' 6 7
      match Comp.ofBits? code with
      | some comp =>
        .ok (compute comp (.ofBits (word.extractLsb' 3 3)) (.ofBits (word.extractLsb' 0 3)))
      | none => .error (.comp code)
    else .error .header
  else .ok (address (word.extractLsb' 0 15))

/-- The canonical text of an instruction. -/
def render : Instruction → Bytes
  | address value => Byte.atSign :: Decimal.ofNat value.toNat
  | compute comp dest jump =>
    (if dest = .nowhere then [] else dest.spelling ++ [Byte.equalsSign]) ++ comp.spelling
      ++ (if jump = .never then [] else Byte.semicolon :: jump.spelling)

end Instruction

/-- The word that loads the low fifteen bits of an address. -/
def Word.ofAddress (address : UInt16) : Word :=
  (Instruction.address (address.toBitVec.setWidth 15)).encode

/-! ## The fields of a word -/

namespace Word

/-- The bits of a computing word, from the least significant one. -/
theorem getLsbD_ofFields (comp : BitVec 7) (dest jump : BitVec 3) (i : Nat) :
    (ofFields comp dest jump).getLsbD i =
      if i < 3 then jump.getLsbD i
      else if i < 6 then dest.getLsbD (i - 3)
      else if i < 13 then comp.getLsbD (i - 6)
      else decide (i < 16) := by
  simp only [ofFields, BitVec.getLsbD_append]
  by_cases h3 : i < 3
  · simp [h3]
  by_cases h6 : i < 6
  · simp [h3, h6, show i - 3 < 3 by omega]
  by_cases h13 : i < 13
  · simp only [h3, h6, h13, if_true, if_false, show ¬ i - 3 < 3 by omega,
      show i - 3 - 3 = i - 6 by omega, show i - 6 < 7 by omega]
  by_cases h16 : i < 16
  · -- the three bits of the header
    obtain h | h | h : i = 13 ∨ i = 14 ∨ i = 15 := by omega
    all_goals subst h; simp
  · simp only [h3, h6, h13, h16, if_false, decide_false, show ¬ i - 3 < 3 by omega,
      show ¬ i - 3 - 3 < 7 by omega]
    exact BitVec.getLsbD_of_ge _ _ (by omega)

theorem msb_ofFields (comp : BitVec 7) (dest jump : BitVec 3) :
    (ofFields comp dest jump).msb = true := by
  simp [BitVec.msb_eq_getLsbD_last, getLsbD_ofFields]

theorem header_ofFields (comp : BitVec 7) (dest jump : BitVec 3) :
    (ofFields comp dest jump).extractLsb' 13 2 = 0b11#2 := by
  apply BitVec.eq_of_getLsbD_eq
  intro i hi
  obtain h | h : i = 0 ∨ i = 1 := by omega
  all_goals subst h; simp [getLsbD_ofFields]

theorem comp_ofFields (comp : BitVec 7) (dest jump : BitVec 3) :
    (ofFields comp dest jump).extractLsb' 6 7 = comp := by
  apply BitVec.eq_of_getLsbD_eq
  intro i hi
  simp [getLsbD_ofFields, hi, show 6 + i < 13 by omega, show ¬ 6 + i < 6 by omega,
    show ¬ 6 + i < 3 by omega]

theorem dest_ofFields (comp : BitVec 7) (dest jump : BitVec 3) :
    (ofFields comp dest jump).extractLsb' 3 3 = dest := by
  apply BitVec.eq_of_getLsbD_eq
  intro i hi
  simp [getLsbD_ofFields, hi, show 3 + i < 6 by omega, show ¬ 3 + i < 3 by omega]

theorem jump_ofFields (comp : BitVec 7) (dest jump : BitVec 3) :
    (ofFields comp dest jump).extractLsb' 0 3 = jump := by
  apply BitVec.eq_of_getLsbD_eq
  intro i hi
  simp [getLsbD_ofFields, hi]

/-- In digits a computing word is `111` and the codes of its fields. -/
theorem render_ofFields (comp : BitVec 7) (dest jump : BitVec 3) :
    Binary.render (ofFields comp dest jump) = ascii "111" ++ Binary.render comp
      ++ Binary.render dest ++ Binary.render jump := by
  have hheader : Binary.render 0b111#3 = ascii "111" := by decide
  rw [ofFields, Binary.render_append, Binary.render_append, Binary.render_append, hheader]

/-- A word that starts with `111` is made up of its fields. -/
theorem ofFields_extract {w : Word} (hm : w.msb = true) (hh : w.extractLsb' 13 2 = 0b11#2) :
    ofFields (w.extractLsb' 6 7) (w.extractLsb' 3 3) (w.extractLsb' 0 3) = w := by
  have h13 : w.getLsbD 13 = true := by simpa using congrArg (BitVec.getLsbD · 0) hh
  have h14 : w.getLsbD 14 = true := by simpa using congrArg (BitVec.getLsbD · 1) hh
  have h15 : w.getLsbD 15 = true := by simpa [BitVec.msb_eq_getLsbD_last] using hm
  apply BitVec.eq_of_getLsbD_eq
  intro i hi
  rw [getLsbD_ofFields]
  split
  · next h => simp [h]
  split
  · simp [show i - 3 < 3 by omega, show 3 + (i - 3) = i by omega]
  split
  · simp [show i - 6 < 7 by omega, show 6 + (i - 6) = i by omega]
  · obtain h | h | h : i = 13 ∨ i = 14 ∨ i = 15 := by omega
    all_goals subst h; simp [*]

/-- A word that starts with `0` holds its other fifteen bits. -/
theorem setWidth_extract {w : Word} (hm : w.msb = false) :
    (w.extractLsb' 0 15).setWidth 16 = w := by
  have h15 : w.getLsbD 15 = false := by simpa [BitVec.msb_eq_getLsbD_last] using hm
  apply BitVec.eq_of_getLsbD_eq
  intro i hi
  by_cases h : i < 15
  · simp [h, hi]
  · obtain rfl : i = 15 := by omega
    rw [h15]
    simp

end Word

/-! ## Encoding and decoding -/

namespace Instruction

/-- **Decoding gives back the instruction** that was encoded. -/
theorem decode_encode (i : Instruction) : decode i.encode = .ok i := by
  cases i with
  | address value =>
    have hm : (value.setWidth 16).msb = false := by simp [BitVec.msb_setWidth]
    have hv : (value.setWidth 16).extractLsb' 0 15 = value := by
      apply BitVec.eq_of_getLsbD_eq
      intro i hi
      simp [hi, show i < 16 by omega]
    simp [encode, decode, hm, hv]
  | compute comp dest jump =>
    simp [encode, decode, Word.msb_ofFields, Word.header_ofFields, Word.comp_ofFields,
      Word.dest_ofFields, Word.jump_ofFields, Comp.ofBits?_bits, Dest.ofBits_bits,
      Jump.ofBits_bits]

/-- **Only its own word** decodes to an instruction. -/
theorem encode_of_decode {w : Word} {i : Instruction} (h : decode w = .ok i) : i.encode = w := by
  rw [decode] at h
  split at h
  · next hm =>
    split at h
    · next hh =>
      dsimp only at h
      split at h
      · next comp hc =>
        obtain rfl := Except.ok.inj h
        rw [encode, Comp.bits_of_ofBits? hc, Dest.bits_ofBits, Jump.bits_ofBits]
        exact Word.ofFields_extract hm (by simpa using hh)
      · simp at h
    · simp at h
  · next hm =>
    obtain rfl := Except.ok.inj h
    exact Word.setWidth_extract (by simpa using hm)

end Instruction

end HackAssembly
