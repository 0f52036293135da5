import HackAssembly.Computation
import HackAssembly.Statement
import HackAssembly.Proofs.Lines

/-!
# Canonical texts read back

The canonical text of an instruction is one that the assembler reads without a problem and as that
same instruction.

Reading cuts the text at marks: at line ends, at a comment, at the first `=`, at the first `;`.  So
the proof keeps to one question, which bytes a text can hold.  The spellings of the fields hold only
*field bytes*, which are none of the marks, and a canonical text holds only *canonical bytes*, which
are neither white space nor start a comment, a line end or a label.  Hence a canonical text is its
own normalised line (`normalise_render`), it is of the kind it should be
(`ofContent_render_address`, `ofContent_render_compute`), and each of the three fields is cut out
whole (`dest?_render`, `comp?_render`, `jump?_render`).
-/

namespace HackAssembly

/-! ## Bytes of canonical texts -/

/-- The bytes of canonical texts: printable, but neither `/` nor `(`. -/
def Byte.isCanonical (b : UInt8) : Bool := 0x21 ≤ b && b ≤ 0x7E && b != 0x2F && b != Byte.openParen

/-- The bytes of the fields of a computation: those of canonical texts without the three marks. -/
def Byte.isField (b : UInt8) : Bool :=
  Byte.isCanonical b && !(ascii "@=;").contains b

theorem Byte.isCanonical_of_isField {b : UInt8} (h : Byte.isField b = true) :
    Byte.isCanonical b = true := by
  rw [Byte.isField, Bool.and_eq_true] at h
  exact h.1

theorem Byte.isCanonical_of_isDigit {b : UInt8} (h : Byte.isDigit b = true) :
    Byte.isCanonical b = true := by
  simp only [Byte.isDigit, Bool.and_eq_true, decide_eq_true_eq] at h
  simp only [Byte.isCanonical, Byte.openParen, Bool.and_eq_true, decide_eq_true_eq, bne_iff_ne]
  refine ⟨⟨⟨?_, ?_⟩, ?_⟩, ?_⟩
  all_goals grind

theorem Comp.isField_of_mem (c : Comp) : ∀ b ∈ c.spelling, Byte.isField b = true := by
  cases c <;> decide +kernel

theorem Dest.isField_of_mem (d : Dest) : ∀ b ∈ d.spelling, Byte.isField b = true := by
  rcases d with ⟨_ | _, _ | _, _ | _⟩ <;> decide +kernel

theorem Jump.isField_of_mem (j : Jump) : ∀ b ∈ j.spelling, Byte.isField b = true := by
  rcases j with ⟨_ | _, _ | _, _ | _⟩ <;> decide +kernel

/-- A mark stands in no field. -/
theorem notMem_of_isField {s : Bytes} (h : ∀ b ∈ s, Byte.isField b = true) {mark : UInt8}
    (hmark : Byte.isField mark = false) : mark ∉ s := by
  intro hmem
  rw [h mark hmem] at hmark
  exact absurd hmark (by decide)

/-- A computation is written with field bytes and the marks `=` and `;`. -/
theorem isField_or_of_mem_render {comp : Comp} {dest : Dest} {jump : Jump} {b : UInt8}
    (h : b ∈ (Instruction.compute comp dest jump).render) :
    Byte.isField b = true ∨ b = Byte.equalsSign ∨ b = Byte.semicolon := by
  rw [Instruction.render, List.mem_append, List.mem_append] at h
  rcases h with (hdest | hcomp) | hjump
  · split at hdest
    · simp at hdest
    · rcases List.mem_append.1 hdest with hin | hin
      · exact Or.inl (dest.isField_of_mem b hin)
      · exact Or.inr (Or.inl (List.mem_singleton.1 hin))
  · exact Or.inl (comp.isField_of_mem b hcomp)
  · split at hjump
    · simp at hjump
    · rcases List.mem_cons.1 hjump with hin | hin
      · exact Or.inr (Or.inr hin)
      · exact Or.inl (jump.isField_of_mem b hin)

theorem isCanonical_of_mem_render {i : Instruction} {b : UInt8} (h : b ∈ i.render) :
    Byte.isCanonical b = true := by
  cases i with
  | address value =>
    rcases List.mem_cons.1 h with rfl | hdigit
    · decide
    · have hnum := Decimal.isNumeral_ofNat value.toNat
      rw [Decimal.isNumeral, Bool.and_eq_true] at hnum
      exact Byte.isCanonical_of_isDigit (List.all_eq_true.1 hnum.2 b hdigit)
  | compute comp dest jump =>
    rcases isField_or_of_mem_render h with hfield | rfl | rfl
    · exact Byte.isCanonical_of_isField hfield
    · decide
    · decide

/-! ## Canonical texts as lines -/

theorem unbroken_of_isCanonical {s : Bytes} (h : ∀ b ∈ s, Byte.isCanonical b = true) :
    Unbroken s := by
  intro e he
  have hhead : ∃ b ∈ e.bytes, Byte.isCanonical b = false := by
    cases e <;> decide
  obtain ⟨b, hb, hnot⟩ := hhead
  rw [h b (he.subset hb)] at hnot
  exact absurd hnot (by decide)

theorem scan_of_isCanonical {s : Bytes} (h : ∀ b ∈ s, Byte.isCanonical b = true) (kept : Bytes) :
    beforeComment.scan kept s = kept.reverse ++ s := by
  induction s generalizing kept with
  | nil => simp [beforeComment.scan]
  | cons b s ih =>
    have hb : b ≠ 0x2F := by
      rintro rfl
      exact absurd (h 0x2F List.mem_cons_self) (by decide)
    rw [beforeComment.scan, ih (fun c hc => h c (List.mem_cons_of_mem b hc))]
    · simp
    · intro _ hslash
      exact absurd hslash hb

theorem not_isBlank_of_isCanonical {b : UInt8} (h : Byte.isCanonical b = true) :
    Byte.isBlank b = false := by
  simp only [Byte.isCanonical, Bool.and_eq_true, decide_eq_true_eq] at h
  simp only [Byte.isBlank, Bool.or_eq_false_iff, Bool.and_eq_false_iff, decide_eq_false_iff_not,
    beq_eq_false_iff_ne]
  grind

theorem normalise_of_isCanonical {s : Bytes} (h : ∀ b ∈ s, Byte.isCanonical b = true) :
    normalise s = s := by
  rw [normalise, beforeComment, scan_of_isCanonical h, List.reverse_nil, List.nil_append,
    List.filter_eq_self]
  intro b hb
  rw [not_isBlank_of_isCanonical (h b hb)]
  rfl

/-- **A canonical text is its own normalised line.** -/
theorem normalise_render (i : Instruction) : normalise i.render = i.render :=
  normalise_of_isCanonical fun _ => isCanonical_of_mem_render

theorem unbroken_render (i : Instruction) : Unbroken i.render :=
  unbroken_of_isCanonical fun _ => isCanonical_of_mem_render

theorem render_ne_nil (i : Instruction) : i.render ≠ [] := by
  cases i with
  | address value => exact List.cons_ne_nil _ _
  | compute comp dest jump =>
    have hcomp : comp.spelling ≠ [] := by cases comp <;> decide
    simp [Instruction.render, hcomp]

/-- A canonical text neither declares a label nor starts like a declaration. -/
theorem opensLabel_render (i : Instruction) : opensLabel i.render = false := by
  rw [opensLabel, beq_eq_false_iff_ne]
  intro hhead
  have hcanonical := isCanonical_of_mem_render (List.mem_of_head? hhead)
  exact absurd hcanonical (by decide)

theorem declaredLabel?_eq_none {content : Bytes} (h : opensLabel content = false) :
    declaredLabel? content = none := by
  unfold declaredLabel?
  split
  · simp [opensLabel, Byte.openParen] at h
  · rfl

/-! ## Kinds -/

theorem isSymbol_of_isNumeral {s : Bytes} (h : Decimal.isNumeral s = true) :
    Symbol.isSymbol s = false := by
  cases s with
  | nil => rfl
  | cons b s =>
    have hdigit : Byte.isDigit b = true := by
      rw [Decimal.isNumeral, Bool.and_eq_true] at h
      exact List.all_eq_true.1 h.2 b List.mem_cons_self
    -- no digit can start a symbol
    have hstart : Symbol.isStart b = false := by
      simp only [Byte.isDigit, Bool.and_eq_true, decide_eq_true_eq] at hdigit
      simp only [Symbol.isStart, Byte.isLetter, Bool.or_eq_false_iff, Bool.and_eq_false_iff,
        decide_eq_false_iff_not, beq_eq_false_iff_ne]
      grind
    rw [Symbol.isSymbol, hstart]
    rfl

theorem ofContent_render_address (value : BitVec 15) :
    Kind.ofContent (Instruction.address value).render = .constant := by
  have hnum := Decimal.isNumeral_ofNat value.toNat
  rw [Instruction.render, Byte.atSign, Kind.ofContent, isSymbol_of_isNumeral hnum, hnum]
  rfl

theorem value_operand_render (value : BitVec 15) :
    Decimal.value ((Instruction.address value).render.drop 1) = value.toNat :=
  Decimal.value_ofNat value.toNat

theorem opensAddress_render_compute (comp : Comp) (dest : Dest) (jump : Jump) :
    opensAddress (Instruction.compute comp dest jump).render = false := by
  rw [opensAddress, beq_eq_false_iff_ne]
  intro hhead
  rcases isField_or_of_mem_render (List.mem_of_head? hhead) with hfield | hmark | hmark
  · exact absurd hfield (by decide)
  · exact absurd hmark (by decide)
  · exact absurd hmark (by decide)

theorem ofContent_eq_computation {content : Bytes} (h : opensAddress content = false) :
    Kind.ofContent content = .computation := by
  unfold Kind.ofContent
  split
  · simp [opensAddress, Byte.atSign] at h
  · rfl

theorem ofContent_render_compute (comp : Comp) (dest : Dest) (jump : Jump) :
    Kind.ofContent (Instruction.compute comp dest jump).render = .computation :=
  ofContent_eq_computation (opensAddress_render_compute comp dest jump)

/-! ## Fields -/

namespace Computation

/-- The text of a computation and its jump, which stands behind the destination. -/
def tail (comp : Comp) (jump : Jump) : Bytes :=
  comp.spelling ++ if jump = .never then [] else Byte.semicolon :: jump.spelling

theorem render_nowhere (comp : Comp) (jump : Jump) :
    (Instruction.compute comp .nowhere jump).render = tail comp jump := rfl

theorem render_of_ne_nowhere {dest : Dest} (h : dest ≠ .nowhere) (comp : Comp) (jump : Jump) :
    (Instruction.compute comp dest jump).render
      = dest.spelling ++ Byte.equalsSign :: tail comp jump := by
  simp [Instruction.render, tail, h]

theorem equalsSign_notMem_tail (comp : Comp) (jump : Jump) : Byte.equalsSign ∉ tail comp jump := by
  rw [tail, List.mem_append, not_or]
  refine ⟨notMem_of_isField comp.isField_of_mem (by decide), ?_⟩
  split
  · exact List.not_mem_nil
  · rw [List.mem_cons, not_or]
    exact ⟨by decide, notMem_of_isField jump.isField_of_mem (by decide)⟩

theorem takeWhile_tail (comp : Comp) (jump : Jump) :
    (tail comp jump).takeWhile (· != Byte.semicolon) = comp.spelling := by
  have hcomp : Byte.semicolon ∉ comp.spelling := notMem_of_isField comp.isField_of_mem (by decide)
  rw [tail]
  split
  · rw [List.append_nil, takeWhile_ne_of_notMem hcomp]
  · exact takeWhile_ne_append_cons hcomp _

theorem dest?_render (comp : Comp) (dest : Dest) (jump : Jump) :
    dest? (Instruction.compute comp dest jump).render = some dest := by
  by_cases hdest : dest = .nowhere
  · rw [hdest, render_nowhere, dest?, dropWhile_ne_of_notMem (equalsSign_notMem_tail comp jump)]
  · have hmark : Byte.equalsSign ∉ dest.spelling :=
      notMem_of_isField dest.isField_of_mem (by decide)
    obtain ⟨b, rest, htail⟩ : ∃ b rest, tail comp jump = b :: rest :=
      List.exists_cons_of_ne_nil (render_ne_nil (.compute comp .nowhere jump))
    rw [render_of_ne_nowhere hdest, dest?, dropWhile_ne_append_cons hmark,
      takeWhile_ne_append_cons hmark, htail]
    exact Dest.read?_spelling hdest

theorem comp?_render (comp : Comp) (dest : Dest) (jump : Jump) :
    comp? (Instruction.compute comp dest jump).render = some comp := by
  have htext : compText (Instruction.compute comp dest jump).render = comp.spelling := by
    by_cases hdest : dest = .nowhere
    · rw [hdest, render_nowhere, compText,
        dropWhile_ne_of_notMem (equalsSign_notMem_tail comp jump)]
      exact takeWhile_tail comp jump
    · have hmark : Byte.equalsSign ∉ dest.spelling :=
        notMem_of_isField dest.isField_of_mem (by decide)
      have hsemicolon : Byte.semicolon ∉ dest.spelling :=
        notMem_of_isField dest.isField_of_mem (by decide)
      rw [render_of_ne_nowhere hdest, compText, dropWhile_ne_append_cons hmark,
        takeWhile_ne_append_cons hmark]
      dsimp only
      rw [if_neg (by simpa using hsemicolon), takeWhile_tail]
  rw [comp?, htext, Comp.read?_spelling]

theorem render_eq_never_append (comp : Comp) (dest : Dest) (jump : Jump) :
    (Instruction.compute comp dest jump).render
      = (Instruction.compute comp dest .never).render
        ++ if jump = .never then [] else Byte.semicolon :: jump.spelling := by
  simp [Instruction.render]

theorem semicolon_notMem_render_never (comp : Comp) (dest : Dest) :
    Byte.semicolon ∉ (Instruction.compute comp dest .never).render := by
  have hcomp : Byte.semicolon ∉ comp.spelling := notMem_of_isField comp.isField_of_mem (by decide)
  have hdest : Byte.semicolon ∉ dest.spelling := notMem_of_isField dest.isField_of_mem (by decide)
  have hmark : Byte.semicolon ≠ Byte.equalsSign := by decide
  by_cases h : dest = .nowhere <;> simp [Instruction.render, h, hcomp, hdest, hmark]

theorem semicolon_mem_of_hasJump {line : Bytes} (h : hasJump line = true) :
    Byte.semicolon ∈ line := by
  unfold hasJump at h
  split at h
  · next hdrop =>
    apply List.mem_of_mem_drop (i := line.length - 4)
    rw [hdrop]
    exact List.mem_cons_self
  · simp at h

/-- A spelled jump behind a `;` and anything before that is found. -/
theorem hasJump_append {s : Bytes} (hs : s ≠ []) {jump : Jump} (h : jump ≠ .never) :
    hasJump (s ++ Byte.semicolon :: jump.spelling) = true ∧
      (s ++ Byte.semicolon :: jump.spelling).drop
        ((s ++ Byte.semicolon :: jump.spelling).length - 3) = jump.spelling := by
  have hlength : jump.spelling.length = 3 := by
    rcases jump with ⟨_ | _, _ | _, _ | _⟩
    · exact absurd rfl h
    all_goals rfl
  have hpos := List.length_pos_of_ne_nil hs
  have hfour : (s ++ Byte.semicolon :: jump.spelling).length - 4 = s.length := by
    rw [List.length_append, List.length_cons, hlength]
    omega
  have hthree : (s ++ Byte.semicolon :: jump.spelling).length - 3 = s.length + 1 := by
    rw [List.length_append, List.length_cons, hlength]
    omega
  have hlong : 4 < (s ++ Byte.semicolon :: jump.spelling).length := by
    rw [List.length_append, List.length_cons, hlength]
    omega
  constructor
  · rw [hasJump, hfour, List.drop_left, decide_eq_true hlong]
    rcases jump with ⟨_ | _, _ | _, _ | _⟩
    · exact absurd rfl h
    all_goals decide +kernel
  · rw [hthree, List.drop_length_add_append]
    rfl

theorem jump?_append {s : Bytes} (hs : s ≠ []) {jump : Jump} (h : jump ≠ .never) :
    jump? (s ++ Byte.semicolon :: jump.spelling) = some jump := by
  obtain ⟨hhas, hdrop⟩ := hasJump_append hs h
  rw [jump?, if_pos hhas, hdrop, Jump.read?_spelling h]

theorem jump?_of_notMem {s : Bytes} (h : Byte.semicolon ∉ s) : jump? s = some .never := by
  rw [jump?, if_neg (mt semicolon_mem_of_hasJump h), if_neg (by simpa using h)]

theorem jump?_render (comp : Comp) (dest : Dest) (jump : Jump) :
    jump? (Instruction.compute comp dest jump).render = some jump := by
  rw [render_eq_never_append]
  by_cases hjump : jump = .never
  · rw [if_pos hjump, List.append_nil, jump?_of_notMem (semicolon_notMem_render_never comp dest),
      hjump]
  · rw [if_neg hjump, jump?_append (render_ne_nil (.compute comp dest .never)) hjump]

/-- **A canonical computation is read back** without a problem. -/
theorem problems_render (comp : Comp) (dest : Dest) (jump : Jump) :
    problems (Instruction.compute comp dest jump).render = [] := by
  rw [problems, dest?_render, comp?_render, jump?_render]
  rfl

theorem instruction_render (comp : Comp) (dest : Dest) (jump : Jump) :
    instruction (Instruction.compute comp dest jump).render = .compute comp dest jump := by
  rw [instruction, dest?_render, comp?_render, jump?_render]
  rfl

end Computation

end HackAssembly
