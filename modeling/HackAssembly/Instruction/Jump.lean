import HackAssembly.Text.Byte

/-!
# Jumps

After a computation the program may jump, depending on how the result compares with zero.  The code
of a jump has a bit for each of the three outcomes on which it is taken.  The jump that is never
taken is written by leaving it out.
-/

namespace HackAssembly

/-- The outcomes of the comparison with zero on which a jump is taken. -/
structure Jump where
  less : Bool
  equal : Bool
  greater : Bool
  deriving DecidableEq

namespace Jump

def never : Jump := ⟨false, false, false⟩

/-- The jumps that are taken on some outcome, in the order of their codes. -/
def proper : List Jump :=
  [⟨false, false, true⟩, ⟨false, true, false⟩, ⟨false, true, true⟩, ⟨true, false, false⟩,
    ⟨true, false, true⟩, ⟨true, true, false⟩, ⟨true, true, true⟩]

def bits (jump : Jump) : BitVec 3 := BitVec.ofBoolListBE [jump.less, jump.equal, jump.greater]

def ofBits (code : BitVec 3) : Jump := ⟨code.getMsbD 0, code.getMsbD 1, code.getMsbD 2⟩

/-- The spelling of a jump; the one that is never taken has none. -/
def spelling : Jump → Bytes
  | ⟨false, false, false⟩ => []
  | ⟨false, false, true⟩ => ascii "JGT"
  | ⟨false, true, false⟩ => ascii "JEQ"
  | ⟨false, true, true⟩ => ascii "JGE"
  | ⟨true, false, false⟩ => ascii "JLT"
  | ⟨true, false, true⟩ => ascii "JNE"
  | ⟨true, true, false⟩ => ascii "JLE"
  | ⟨true, true, true⟩ => ascii "JMP"

def read? (s : Bytes) : Option Jump := proper.find? (·.spelling == s)

/-! ## Codes and spellings -/

theorem ofBits_bits (jump : Jump) : ofBits jump.bits = jump := by
  rcases jump with ⟨_ | _, _ | _, _ | _⟩ <;> rfl

theorem bits_ofBits (code : BitVec 3) : (ofBits code).bits = code := by
  revert code
  decide

theorem read?_spelling {jump : Jump} (h : jump ≠ never) : read? jump.spelling = some jump := by
  rcases jump with ⟨_ | _, _ | _, _ | _⟩
  · exact absurd rfl h
  all_goals rfl

end Jump

end HackAssembly
