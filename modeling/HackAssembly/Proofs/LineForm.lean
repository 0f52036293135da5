import HackAssembly.Proofs.CanonicalText
import HackAssembly.Proofs.Mnemonics
import HackAssembly.Proofs.Program

/-!
# Forms of lines

What a normalised line has to look like to be read in a certain way, said on its bytes.

A line is a declaration, a use of a symbol or a constant exactly when it has one of the three shapes
`(symbol)`, `@symbol` and `@digits` (`declaredLabel?_eq_some`, `usedName?_eq_some`,
`ofContent_eq_constant`).  The shapes exclude each other, since no digit starts a symbol.

A computation is cut at marks, and what a field is understood as depends on where the marks stand.
The cuts are stated by concatenation: `CutAt mark line before after` says that `mark` stands in
`line` for the first time between `before` and `after`.  A field that is not understood is

* a destination that is none of the seven mnemonics, when something follows its `=`
  (`DestUnknown`);
* a computation that is none of the thirty-seven spellings (`CompUnknown`), where the field ends
  before the first `;` and starts behind the first `=`;
* a jump, when there is a `;` and the line does not end in a `;` and one of the seven mnemonics
  behind something else (`JumpUnknown`).

These are exactly the problems of a computation (`dest?_eq_none`, `comp?_eq_none`,
`jump?_eq_none`), and a line without any of them is a `WellFormedComputation`.
-/

namespace HackAssembly

/-! ## Labels, symbols and constants -/

/-- A line that declares a label: a symbol between parentheses. -/
def Declares (content name : Bytes) : Prop :=
  Symbol.isSymbol name = true ∧ content = Byte.openParen :: (name ++ [Byte.closeParen])

def UsesSymbol (content name : Bytes) : Prop :=
  Symbol.isSymbol name = true ∧ content = Byte.atSign :: name

def LoadsConstant (content digits : Bytes) : Prop :=
  Decimal.isNumeral digits = true ∧ content = Byte.atSign :: digits

theorem declaredLabel?_eq_some {content name : Bytes} :
    declaredLabel? content = some name ↔ Declares content name := by
  constructor
  · intro h
    unfold declaredLabel? at h
    split at h
    · next rest =>
      split at h
      · next hform =>
        obtain ⟨hlast, hsymbol⟩ := by simpa using hform
        obtain rfl := Option.some.inj h
        refine ⟨hsymbol, ?_⟩
        rw [List.dropLast_append_getLast? _ hlast]
        rfl
      · simp at h
    · simp at h
  · rintro ⟨hsymbol, rfl⟩
    rw [Byte.openParen, declaredLabel?, List.getLast?_concat, List.dropLast_concat, hsymbol]
    rfl

theorem usedName?_eq_some {content name : Bytes} :
    usedName? content = some name ↔ UsesSymbol content name := by
  constructor
  · intro h
    unfold usedName? at h
    split at h
    · split at h
      · next hsymbol =>
        obtain rfl := Option.some.inj h
        exact ⟨hsymbol, rfl⟩
      · simp at h
    · simp at h
  · rintro ⟨hsymbol, rfl⟩
    rw [Byte.atSign, usedName?, if_pos hsymbol]

theorem ofContent_eq_symbol {content : Bytes} :
    Kind.ofContent content = .symbol ↔ ∃ name, UsesSymbol content name := by
  constructor
  · intro h
    exact ⟨_, usedName?_eq_some.1 (usedName?_of_symbol h)⟩
  · rintro ⟨name, hsymbol, rfl⟩
    rw [Byte.atSign, Kind.ofContent, if_pos hsymbol]

theorem ofContent_eq_constant {content : Bytes} :
    Kind.ofContent content = .constant ↔ ∃ digits, LoadsConstant content digits := by
  constructor
  · intro h
    unfold Kind.ofContent at h
    split at h
    · next digits =>
      split at h
      · simp at h
      · split at h
        · next hnum => exact ⟨digits, hnum, rfl⟩
        · simp at h
    · simp at h
  · rintro ⟨digits, hnum, rfl⟩
    rw [Byte.atSign, Kind.ofContent, isSymbol_of_isNumeral hnum, hnum]
    rfl

theorem declaredLabel?_eq_none_iff {content : Bytes} :
    declaredLabel? content = none ↔ ¬ ∃ name, Declares content name := by
  rw [Option.eq_none_iff_forall_ne_some, not_exists]
  exact forall_congr' fun name => not_congr declaredLabel?_eq_some

theorem usedName?_eq_none_iff {content : Bytes} :
    usedName? content = none ↔ ¬ ∃ name, UsesSymbol content name := by
  rw [Option.eq_none_iff_forall_ne_some, not_exists]
  exact forall_congr' fun name => not_congr usedName?_eq_some

instance (content : Bytes) : Decidable (∃ name, Declares content name) :=
  decidable_of_iff ((declaredLabel? content).isSome = true) (by
    rw [Option.isSome_iff_exists]
    exact exists_congr fun _ => declaredLabel?_eq_some)

instance (content : Bytes) : Decidable (∃ name, UsesSymbol content name) :=
  decidable_of_iff (Kind.ofContent content = .symbol) ofContent_eq_symbol

instance (content : Bytes) : Decidable (∃ digits, LoadsConstant content digits) :=
  decidable_of_iff (Kind.ofContent content = .constant) ofContent_eq_constant

/-! ## Fields of a computation -/

/-- The first occurrence of a mark in a line, with what stands before it and behind it. -/
def CutAt (mark : UInt8) (line before after : Bytes) : Prop :=
  mark ∉ before ∧ line = before ++ mark :: after

theorem exists_cutAt {mark : UInt8} {line : Bytes} (h : mark ∈ line) :
    ∃ before after, CutAt mark line before after := by
  obtain ⟨before, after, hline, hbefore⟩ := List.eq_append_cons_of_mem h
  exact ⟨before, after, hbefore, hline⟩

theorem CutAt.mem {mark : UInt8} {line before after : Bytes} (h : CutAt mark line before after) :
    mark ∈ line := by
  rw [h.2]
  simp

/-- There is only one first occurrence. -/
theorem CutAt.unique {mark : UInt8} {line before after before' after' : Bytes}
    (h : CutAt mark line before after) (h' : CutAt mark line before' after') :
    before = before' ∧ after = after' := by
  have hsame : before ++ mark :: after = before' ++ mark :: after' := h.2.symm.trans h'.2
  have hbefore := congrArg (List.takeWhile (· != mark)) hsame
  rw [takeWhile_ne_append_cons h.1, takeWhile_ne_append_cons h'.1] at hbefore
  subst hbefore
  exact ⟨rfl, by simpa using hsame⟩

/-- The field of the computation: what stands before the first `;`, or before the end, without all
up to the first `=`. -/
def compField (line : Bytes) : Bytes :=
  (line.takeWhile (· != Byte.semicolon)).drop
    (if Byte.equalsSign ∈ line then line.idxOf Byte.equalsSign + 1 else 0)

theorem compField_of_notMem {line : Bytes} (h : Byte.equalsSign ∉ line) :
    compField line = line.takeWhile (· != Byte.semicolon) := by
  rw [compField, if_neg h, List.drop_zero]

theorem compField_of_cutAt {line before after : Bytes}
    (h : CutAt Byte.equalsSign line before after) :
    compField line = if Byte.semicolon ∈ before then []
      else after.takeWhile (· != Byte.semicolon) := by
  have hindex : line.idxOf Byte.equalsSign = before.length := by
    rw [h.2, List.idxOf_append_of_notMem h.1, List.idxOf_cons_self, Nat.add_zero]
  rw [compField, if_pos h.mem, hindex, h.2]
  split
  · next hsemicolon =>
    -- the first `;` ends the field before its start
    obtain ⟨first, rest, hbefore, hfirst⟩ := List.eq_append_cons_of_mem hsemicolon
    rw [List.drop_eq_nil_iff, hbefore, List.append_assoc, List.cons_append,
      takeWhile_ne_append_cons hfirst, List.length_append]
    omega
  · next hsemicolon =>
    have hne : (Byte.equalsSign != Byte.semicolon) = true := by decide
    rw [takeWhile_ne_append hsemicolon, List.takeWhile_cons, if_pos hne,
      List.drop_length_add_append]
    rfl

def DestUnknown (line : Bytes) : Prop :=
  ∃ before after, CutAt Byte.equalsSign line before after ∧ after ≠ [] ∧ before ∉ Dest.mnemonics

def CompUnknown (line : Bytes) : Prop := compField line ∉ Comp.spellings

/-- A line that ends in a jump, behind at least one byte. -/
def EndsInJump (line : Bytes) : Prop :=
  ∃ before mnemonic, before ≠ [] ∧ mnemonic ∈ Jump.mnemonics ∧
    line = before ++ Byte.semicolon :: mnemonic

def JumpUnknown (line : Bytes) : Prop := Byte.semicolon ∈ line ∧ ¬ EndsInJump line

namespace Computation

theorem dest?_of_notMem {line : Bytes} (h : Byte.equalsSign ∉ line) :
    dest? line = some .nowhere := by
  rw [dest?, dropWhile_ne_of_notMem h]

/-- The destination stands before the first `=`, unless nothing follows that. -/
theorem dest?_of_cutAt {line before after : Bytes}
    (h : CutAt Byte.equalsSign line before after) :
    dest? line = if after = [] then some .nowhere else Dest.read? before := by
  rw [dest?, h.2, dropWhile_ne_append_cons h.1, takeWhile_ne_append_cons h.1]
  cases after with
  | nil => rfl
  | cons b after => rfl

theorem dest?_eq_none {line : Bytes} : dest? line = none ↔ DestUnknown line := by
  by_cases hmem : Byte.equalsSign ∈ line
  · obtain ⟨before, after, hcut⟩ := exists_cutAt hmem
    have hunknown : DestUnknown line ↔ after ≠ [] ∧ before ∉ Dest.mnemonics := by
      constructor
      · rintro ⟨before', after', hcut', hrest⟩
        obtain ⟨rfl, rfl⟩ := hcut.unique hcut'
        exact hrest
      · exact fun hrest => ⟨before, after, hcut, hrest⟩
    rw [hunknown, dest?_of_cutAt hcut, ← Dest.read?_eq_none]
    by_cases hafter : after = [] <;> simp [hafter]
  · rw [dest?_of_notMem hmem]
    constructor
    · simp
    · rintro ⟨before, after, hcut, -⟩
      exact absurd hcut.mem hmem

theorem compText_eq (line : Bytes) : compText line = compField line := by
  by_cases hmem : Byte.equalsSign ∈ line
  · obtain ⟨before, after, hcut⟩ := exists_cutAt hmem
    rw [compField_of_cutAt hcut, compText, hcut.2, dropWhile_ne_append_cons hcut.1,
      takeWhile_ne_append_cons hcut.1]
    simp
  · rw [compField_of_notMem hmem, compText, dropWhile_ne_of_notMem hmem]

theorem comp?_eq_none {line : Bytes} : comp? line = none ↔ CompUnknown line := by
  rw [comp?, compText_eq, Comp.read?_eq_none, CompUnknown]

theorem hasJump_of_endsInJump {line : Bytes} (h : EndsInJump line) :
    hasJump line = true ∧ line.drop (line.length - 3) ∈ Jump.mnemonics := by
  obtain ⟨before, mnemonic, hne, hmem, rfl⟩ := h
  obtain ⟨jump, hjump, rfl⟩ := Jump.exists_spelling_of_mem hmem
  obtain ⟨hhas, hdrop⟩ := hasJump_append hne hjump
  exact ⟨hhas, by rw [hdrop]; exact hmem⟩

theorem endsInJump_of_hasJump {line : Bytes} (h : hasJump line = true)
    (hmem : line.drop (line.length - 3) ∈ Jump.mnemonics) : EndsInJump line := by
  unfold hasJump at h
  split at h
  · next x y hdrop =>
    have hlong : 4 < line.length := by
      simp only [Bool.and_eq_true, decide_eq_true_eq] at h
      exact h.1.1
    have hthree : line.drop (line.length - 3) = [0x4A, x, y] := by
      have hnext : line.length - 3 = line.length - 4 + 1 := by omega
      rw [hnext, ← List.drop_drop, hdrop]
      rfl
    refine ⟨line.take (line.length - 4), [0x4A, x, y], ?_, hthree ▸ hmem, ?_⟩
    · intro hnil
      have hlength := congrArg List.length hnil
      rw [List.length_take, List.length_nil] at hlength
      omega
    · calc line = line.take (line.length - 4) ++ line.drop (line.length - 4) :=
            (List.take_append_drop _ line).symm
        _ = line.take (line.length - 4) ++ Byte.semicolon :: [0x4A, x, y] := by rw [hdrop]; rfl
  · simp at h

theorem jump?_eq_none {line : Bytes} : jump? line = none ↔ JumpUnknown line := by
  rw [jump?]
  split
  · next hhas =>
    rw [Jump.read?_eq_none]
    constructor
    · intro hnot
      exact ⟨semicolon_mem_of_hasJump hhas, fun hends => hnot (hasJump_of_endsInJump hends).2⟩
    · rintro ⟨-, hnot⟩ hmem
      exact hnot (endsInJump_of_hasJump hhas hmem)
  · next hhas =>
    split
    · next hmem =>
      simp only [true_iff]
      exact ⟨by simpa using hmem, fun hends => hhas (hasJump_of_endsInJump hends).1⟩
    · next hmem =>
      constructor
      · simp
      · rintro ⟨hsemicolon, -⟩
        exact absurd (by simpa using hsemicolon) hmem

end Computation

instance (line : Bytes) : Decidable (DestUnknown line) :=
  decidable_of_iff (Computation.dest? line = none) Computation.dest?_eq_none

instance (line : Bytes) : Decidable (CompUnknown line) :=
  inferInstanceAs (Decidable (compField line ∉ Comp.spellings))

instance (line : Bytes) : Decidable (JumpUnknown line) :=
  decidable_of_iff (Computation.jump? line = none) Computation.jump?_eq_none

/-! ## Well-formed computations -/

/-- A computation of which every field is understood. -/
structure WellFormedComputation (line : Bytes) : Prop where
  /-- What stands before the first `=` is a destination, and that `=` precedes any `;`. -/
  dest : ∀ before after, CutAt Byte.equalsSign line before after →
    before ∈ Dest.mnemonics ∧ Byte.semicolon ∉ before
  /-- What stands between the first `=`, or the start, and the first `;`, or the end, is a
  computation. -/
  comp : compField line ∈ Comp.spellings
  /-- If there is a `;`, the last four bytes are a `;` and a jump. -/
  jump : Byte.semicolon ∈ line →
    ∃ before mnemonic, mnemonic ∈ Jump.mnemonics ∧ line = before ++ Byte.semicolon :: mnemonic

theorem Dest.isField_mnemonics :
    ∀ s ∈ mnemonics, s ≠ [] ∧ ∀ b ∈ s, Byte.isField b = true := by
  decide +kernel

theorem Comp.isField_spellings :
    ∀ s ∈ spellings, s ≠ [] ∧ ∀ b ∈ s, Byte.isField b = true := by
  decide +kernel

/-- **A computation has no problem** exactly when it is well-formed. -/
theorem Computation.problems_eq_nil {line : Bytes} :
    problems line = [] ↔ WellFormedComputation line := by
  have hmissing : ∀ {α : Type} (field : Option α) (problem : Problem),
      missing field problem = [] ↔ ¬ field = none := by
    intro α field problem
    cases field <;> simp [missing]
  rw [problems, List.append_eq_nil_iff, List.append_eq_nil_iff, hmissing, hmissing, hmissing,
    dest?_eq_none, comp?_eq_none, jump?_eq_none]
  constructor
  · rintro ⟨⟨hdest, hcomp⟩, hjump⟩
    have hfield : compField line ∈ Comp.spellings := not_not.1 hcomp
    refine ⟨fun before after hcut => ?_, hfield, fun hsemicolon => ?_⟩
    · have hafter : after ≠ [] := by
        rintro rfl
        refine (Comp.isField_spellings _ hfield).1 ?_
        rw [compField_of_cutAt hcut]
        split <;> rfl
      have hmem : before ∈ Dest.mnemonics := by
        by_contra hnot
        exact hdest ⟨before, after, hcut, hafter, hnot⟩
      exact ⟨hmem, notMem_of_isField (Dest.isField_mnemonics before hmem).2 (by decide)⟩
    · obtain ⟨before, mnemonic, -, hmem, hline⟩ : EndsInJump line :=
        not_not.1 fun hnot => hjump ⟨hsemicolon, hnot⟩
      exact ⟨before, mnemonic, hmem, hline⟩
  · intro h
    refine ⟨⟨?_, not_not.2 h.comp⟩, ?_⟩
    · rintro ⟨before, after, hcut, -, hnot⟩
      exact hnot (h.dest before after hcut).1
    · rintro ⟨hsemicolon, hnot⟩
      obtain ⟨before, mnemonic, hmem, hline⟩ := h.jump hsemicolon
      refine hnot ⟨before, mnemonic, ?_, hmem, hline⟩
      -- a line that starts with its `;` has no computation
      rintro rfl
      refine (Comp.isField_spellings _ h.comp).1 ?_
      rw [compField, hline, List.nil_append, List.takeWhile_cons]
      simp

/-- The bytes that a well-formed computation can start with are field bytes. -/
theorem WellFormedComputation.head {line : Bytes} (h : WellFormedComputation line) :
    ∃ b rest, line = b :: rest ∧ Byte.isField b = true := by
  -- either field is not empty, and a line starts with the first that it has
  obtain ⟨field, rest, hline, hne, hfield⟩ : ∃ field rest, line = field ++ rest ∧ field ≠ [] ∧
      ∀ b ∈ field, Byte.isField b = true := by
    by_cases hmem : Byte.equalsSign ∈ line
    · obtain ⟨before, after, hcut⟩ := exists_cutAt hmem
      exact ⟨before, _, hcut.2, Dest.isField_mnemonics before (h.dest before after hcut).1⟩
    · have hspelling := h.comp
      rw [compField_of_notMem hmem] at hspelling
      exact ⟨_, _, List.takeWhile_append_dropWhile.symm, Comp.isField_spellings _ hspelling⟩
  obtain ⟨b, more, rfl⟩ := List.exists_cons_of_ne_nil hne
  exact ⟨b, more ++ rest, hline, hfield b List.mem_cons_self⟩

end HackAssembly
