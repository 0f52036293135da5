import HackAssembly.Text.Line
import Mathlib.Data.List.Infix

/-!
# Lines of texts laid end to end

Cutting a text into lines goes from left to right and looks at most three bytes ahead.  So two texts
laid end to end have the lines of both (`lines_append`), as long as the first one is `Complete`,
that is, empty or ended by a line end, and the two do not meet inside a `\r\n`.

The proof needs two facts about the six line ends.  What is left of a complete text after a line end
at its front is complete again (`Complete.of_split?`), because line ends overlap only in the `\n` of
`\r\n`.  And a text that does not start with a line end does not start with one either when more is
laid behind it (`split?_append_eq_none`), because no line end goes on after another.

Chunks end in `\n`, so reading chunk by chunk gives the lines of the whole text
(`flatMap_lines_chunks`).  A text is taken apart by `lineFeedInduction`: it has no line feed, or it
is a chunk with a text behind it.

In the other direction `unlines` puts lines together, and both ways of cutting give them back
(`lines_unlines`, `chunks_unlines`).

The first lemmas are about the plainest cut of all, at the first occurrence of a mark.
-/

namespace HackAssembly

/-! ## Cutting at a mark -/

section Cut

variable {α : Type} [BEq α] [LawfulBEq α] {mark : α} {s : List α}

theorem takeWhile_ne_append (h : mark ∉ s) (t : List α) :
    (s ++ t).takeWhile (· != mark) = s ++ t.takeWhile (· != mark) := by
  apply List.takeWhile_append_of_pos
  intro x hx
  exact bne_iff_ne.2 (ne_of_mem_of_not_mem hx h)

theorem dropWhile_ne_append (h : mark ∉ s) (t : List α) :
    (s ++ t).dropWhile (· != mark) = t.dropWhile (· != mark) := by
  apply List.dropWhile_append_of_pos
  intro x hx
  exact bne_iff_ne.2 (ne_of_mem_of_not_mem hx h)

theorem takeWhile_ne_append_cons (h : mark ∉ s) (t : List α) :
    (s ++ mark :: t).takeWhile (· != mark) = s := by
  rw [takeWhile_ne_append h]
  simp

theorem dropWhile_ne_append_cons (h : mark ∉ s) (t : List α) :
    (s ++ mark :: t).dropWhile (· != mark) = mark :: t := by
  rw [dropWhile_ne_append h]
  simp

theorem takeWhile_ne_of_notMem (h : mark ∉ s) : s.takeWhile (· != mark) = s := by
  simpa using takeWhile_ne_append h []

theorem dropWhile_ne_of_notMem (h : mark ∉ s) : s.dropWhile (· != mark) = [] := by
  simpa using dropWhile_ne_append h []

end Cut

/-! ## Line ends at the front -/

namespace LineEnd

theorem bytes_ne_nil (e : LineEnd) : e.bytes ≠ [] := by
  cases e <;> decide

/-- The line end at the front of a text is found, unless a lone `\r` meets a `\n`. -/
theorem split?_bytes_append {e : LineEnd} {rest : Bytes}
    (h : ¬ (e = cr ∧ rest.head? = some 0x0A)) : split? (e.bytes ++ rest) = some (e, rest) := by
  cases e with
  | cr =>
    cases rest with
    | nil => rfl
    | cons b rest =>
      have hb : b ≠ 0x0A := fun hb => h ⟨rfl, by rw [hb]; rfl⟩
      simp [bytes, split?, hb]
  | _ => rfl

theorem split?_bytes_append_ne_none (e : LineEnd) (rest : Bytes) :
    split? (e.bytes ++ rest) ≠ none := by
  by_cases h : e = cr ∧ rest.head? = some 0x0A
  · obtain ⟨rfl, h⟩ := h
    obtain ⟨rest, rfl⟩ : ∃ r, rest = 0x0A :: r := by
      cases rest with
      | nil => simp at h
      | cons b r => exact ⟨r, by rw [Option.some.inj h]⟩
    exact Option.some_ne_none _
  · rw [split?_bytes_append h]
    exact Option.some_ne_none _

/-- A lone `\r` is found only where no `\n` follows. -/
theorem head?_ne_of_split?_cr {s rest : Bytes} (h : split? s = some (cr, rest)) :
    rest.head? ≠ some 0x0A := by
  intro hhead
  cases rest with
  | nil => simp at hhead
  | cons b rest =>
    obtain rfl : b = 0x0A := Option.some.inj hhead
    rw [eq_append_of_split? h] at h
    exact absurd h (by simp [bytes, split?])

end LineEnd

open LineEnd

/-- A text that is empty or ended by a line end. -/
def Complete (s : Bytes) : Prop := s = [] ∨ ∃ u, ∃ e : LineEnd, s = u ++ e.bytes

/-- Two texts whose border lies inside a `\r\n`. -/
def Straddled (s t : Bytes) : Prop := s.getLast? = some 0x0D ∧ t.head? = some 0x0A

/-- Line ends overlap only in the `\n` of `\r\n` and in its `\r`. -/
theorem LineEnd.overlap (d e : LineEnd) : ∀ i < d.bytes.length, d.bytes.drop i <+: e.bytes →
    d.bytes.drop i = e.bytes ∨ d = cr ∧ e = crlf := by
  cases d <;> cases e <;> decide

/-- A line end inside another one stands at its front or at its back. -/
theorem LineEnd.inside (d e : LineEnd) : ∀ i < e.bytes.length, d.bytes <+: e.bytes.drop i →
    i = 0 ∨ i + d.bytes.length = e.bytes.length := by
  cases d <;> cases e <;> decide

theorem Complete.of_split? {s rest : Bytes} {e : LineEnd} (hs : Complete s)
    (h : split? s = some (e, rest)) : Complete rest := by
  have heq := eq_append_of_split? h
  rcases hs with rfl | ⟨u, d, hu⟩
  · exact absurd heq (by cases e <;> simp [bytes])
  rw [heq, List.append_eq_append_iff] at hu
  rcases hu with ⟨x, rfl, hrest⟩ | ⟨x, he, hd⟩
  · exact Or.inr ⟨x, d, hrest⟩
  · -- the line end at the front runs into the one at the back
    have hx : e.bytes.drop u.length = x := by rw [he]; simp
    rcases Nat.lt_or_ge u.length e.bytes.length with hlt | hge
    · rcases LineEnd.overlap e d u.length hlt ⟨rest, by rw [hx, hd]⟩ with hfull | ⟨rfl, rfl⟩
      · rw [hx, hd] at hfull
        exact Or.inl (List.self_eq_append_right.1 hfull)
      · refine absurd ?_ (head?_ne_of_split?_cr h)
        obtain rfl : u = [] := List.eq_nil_of_length_eq_zero (by simpa [bytes] using hlt)
        rw [List.nil_append] at he
        rw [← he] at hd
        obtain rfl : [0x0A] = rest := by simpa [bytes] using hd
        rfl
    · rw [List.drop_eq_nil_of_le hge] at hx
      subst hx
      exact Or.inr ⟨[], d, hd.symm⟩

theorem split?_append {s t rest : Bytes} {e : LineEnd} (h : split? s = some (e, rest))
    (hst : ¬ Straddled s t) : split? (s ++ t) = some (e, rest ++ t) := by
  have heq := eq_append_of_split? h
  rw [heq, List.append_assoc]
  apply split?_bytes_append
  rintro ⟨rfl, hhead⟩
  cases rest with
  | nil => exact hst ⟨by rw [heq]; rfl, hhead⟩
  | cons b rest => exact head?_ne_of_split?_cr h hhead

theorem split?_append_eq_none {s t : Bytes} (hs : Complete s) (hne : s ≠ [])
    (h : split? s = none) : split? (s ++ t) = none := by
  by_contra hsome
  obtain ⟨⟨e, rest⟩, hsplit⟩ := Option.ne_none_iff_exists'.1 hsome
  have heq := eq_append_of_split? hsplit
  rw [List.append_eq_append_iff] at heq
  rcases heq with ⟨x, he, -⟩ | ⟨x, rfl, -⟩
  · -- all of `s` lies within a line end, but it ends with one itself
    obtain ⟨u, d, rfl⟩ := hs.resolve_left hne
    have hdrop : e.bytes.drop u.length = d.bytes ++ x := by rw [he]; simp
    have hlen := congrArg List.length he
    have hpos := List.length_pos_of_ne_nil (bytes_ne_nil d)
    simp only [List.length_append] at hlen
    rcases LineEnd.inside d e u.length (by omega) ⟨x, hdrop.symm⟩ with hfront | hback
    · obtain rfl := List.eq_nil_of_length_eq_zero hfront
      exact split?_bytes_append_ne_none d [] (by simpa using h)
    · obtain rfl := List.eq_nil_of_length_eq_zero (show x.length = 0 by omega)
      rw [List.append_nil] at he
      exact split?_bytes_append_ne_none e [] (by rw [he]; simpa using h)
  · exact split?_bytes_append_ne_none e x h

/-! ## Lines -/

theorem lines.cut_append {s t : Bytes} {current : Bytes} (done : Array Bytes) (hs : Complete s)
    (hcurrent : s = [] → current = []) (hst : ¬ Straddled s t) :
    cut done current (s ++ t) = cut (cut done current s) [] t := by
  induction h : s.length using Nat.strongRecOn generalizing done current s with
  | ind n ih =>
    cases hsplit : split? s with
    | some p =>
      obtain ⟨e, rest⟩ := p
      have hlt : rest.length < n := h ▸ length_lt_of_split? hsplit
      have hborder : ¬ Straddled rest t := by
        rintro ⟨hlast, hhead⟩
        refine hst ⟨?_, hhead⟩
        rw [eq_append_of_split? hsplit, List.getLast?_append, hlast]
        rfl
      rw [cut_of_split? (split?_append hsplit hst), cut_of_split? hsplit,
        ih rest.length hlt (done.push current.reverse) (hs.of_split? hsplit) (fun _ => rfl) hborder
          rfl]
    | none =>
      cases s with
      | nil =>
        rw [hcurrent rfl]
        rfl
      | cons b s =>
        -- a complete text of one byte is a line end, so more of it follows
        have hnext : Complete s ∧ s ≠ [] := by
          obtain ⟨u, e, hu⟩ := hs.resolve_left (by simp)
          cases u with
          | nil =>
            rw [List.nil_append] at hu
            rw [hu, ← List.append_nil e.bytes] at hsplit
            exact absurd hsplit (split?_bytes_append_ne_none e [])
          | cons c u =>
            obtain ⟨rfl, rfl⟩ := List.cons.inj hu
            exact ⟨Or.inr ⟨u, e, rfl⟩, by simp [bytes_ne_nil]⟩
        have hborder : ¬ Straddled s t := by
          rintro ⟨hlast, hhead⟩
          refine hst ⟨?_, hhead⟩
          rw [List.getLast?_cons, hlast]
          rfl
        have hnone := split?_append_eq_none (t := t) hs (by simp) hsplit
        rw [List.cons_append] at hnone ⊢
        rw [cut_cons hnone, cut_cons hsplit]
        exact ih s.length (by rw [← h]; simp) done hnext.1 (fun he => absurd he hnext.2) hborder rfl

/-- **Lines of two texts laid end to end** are the lines of the one and then those of the other. -/
theorem lines_append {s t : Bytes} (hs : Complete s) (hst : ¬ Straddled s t) :
    lines (s ++ t) = lines s ++ lines t := by
  rw [lines, lines.cut_append #[] hs (fun _ => rfl) hst, lines.toList_cut]
  rfl

theorem lines_append_lineFeed (s t : Bytes) :
    lines (s ++ Byte.lineFeed :: t) = lines (s ++ [Byte.lineFeed]) ++ lines t := by
  have hs : Complete (s ++ [Byte.lineFeed]) := Or.inr ⟨s, lf, rfl⟩
  have hst : ¬ Straddled (s ++ [Byte.lineFeed]) t := by
    rintro ⟨hlast, -⟩
    rw [List.getLast?_concat] at hlast
    exact absurd hlast (by decide)
  rw [← lines_append hs hst, List.append_assoc, List.singleton_append]

def Unbroken (s : Bytes) : Prop := ∀ e : LineEnd, ¬ e.bytes <:+: s

instance (s : Bytes) : Decidable (Unbroken s) :=
  decidable_of_iff (∀ e ∈ [crlf, cr, lf, nextLine, lineSeparator, paragraphSeparator],
      ¬ e.bytes <:+: s)
    ⟨fun h e => h e (by cases e <;> decide), fun h e _ => h e⟩

theorem Unbroken.of_cons {b : UInt8} {s : Bytes} (h : Unbroken (b :: s)) : Unbroken s :=
  fun e he => h e (List.infix_cons he)

/-- The bytes that line ends start with stand nowhere else in one, but for the `\n` of `\r\n`. -/
theorem LineEnd.eq_crlf_of_head? (d e : LineEnd) : ∀ i < d.bytes.length, 0 < i →
    (d.bytes.drop i).head? = e.bytes.head? → d = crlf ∧ i = 1 := by
  cases d <;> cases e <;> decide

theorem Unbroken.split?_append_eq_none {b : UInt8} {s : Bytes} (h : Unbroken (b :: s))
    (e : LineEnd) (t : Bytes) : split? (b :: s ++ (e.bytes ++ t)) = none := by
  by_contra hsome
  obtain ⟨⟨d, rest⟩, hsplit⟩ := Option.ne_none_iff_exists'.1 hsome
  have heq := eq_append_of_split? hsplit
  rw [List.append_eq_append_iff] at heq
  rcases heq with ⟨x, hd, hx⟩ | ⟨x, hs, -⟩
  · cases x with
    | nil => exact h d ⟨[], [], by simp [hd]⟩
    | cons c x =>
      -- a line end would start inside `b :: s` and go on into `e`
      have hdrop : d.bytes.drop (s.length + 1) = c :: x := by rw [hd]; simp
      have hlen : s.length + 1 < d.bytes.length := by rw [hd]; simp
      have hhead : (d.bytes.drop (s.length + 1)).head? = e.bytes.head? := by
        rw [hdrop]
        cases he : e.bytes with
        | nil => exact absurd he (bytes_ne_nil e)
        | cons f _ =>
          rw [he] at hx
          simp only [List.cons_append, List.cons.injEq] at hx
          simp [hx.1]
      obtain ⟨rfl, hone⟩ := LineEnd.eq_crlf_of_head? d e _ hlen (by omega) hhead
      obtain rfl : s = [] := List.eq_nil_of_length_eq_zero (by omega)
      obtain rfl : 0x0D = b := by simpa [bytes] using congrArg List.head? hd
      exact h cr (List.infix_refl _)
  · exact h d ⟨[], x, by simp [hs]⟩

theorem lines.cut_unbroken {s : Bytes} (hs : Unbroken s) {e : LineEnd} {t : Bytes}
    (het : ¬ (e = cr ∧ t.head? = some 0x0A)) (done : Array Bytes) (current : Bytes) :
    cut done current (s ++ (e.bytes ++ t)) = cut (done.push (current.reverse ++ s)) [] t := by
  induction s generalizing current with
  | nil =>
    rw [List.nil_append, cut_of_split? (split?_bytes_append het), List.append_nil]
  | cons b s ih =>
    have hnone := hs.split?_append_eq_none e t
    rw [List.cons_append] at hnone ⊢
    rw [cut_cons hnone, ih hs.of_cons]
    simp

/-- **A line** is what stands before a line end, when no line end is in it. -/
theorem lines_line {s : Bytes} (hs : Unbroken s) {e : LineEnd} {t : Bytes}
    (het : ¬ (e = cr ∧ t.head? = some 0x0A)) : lines (s ++ (e.bytes ++ t)) = s :: lines t := by
  rw [lines, lines.cut_unbroken hs het, lines.toList_cut]
  rfl

theorem Unbroken.split?_eq_none {s : Bytes} (h : Unbroken s) : split? s = none := by
  cases hs : split? s with
  | none => rfl
  | some p =>
    obtain ⟨e, rest⟩ := p
    exact absurd ⟨[], rest, by simp [eq_append_of_split? hs]⟩ (h e)

theorem lines.cut_of_unbroken {s : Bytes} (hs : Unbroken s) (done : Array Bytes)
    (current : Bytes) : cut done current s = cut done (s.reverse ++ current) [] := by
  induction s generalizing current with
  | nil => rfl
  | cons b s ih =>
    rw [cut_cons hs.split?_eq_none, ih hs.of_cons]
    simp

/-- A text without a line end is one line, unless it is empty. -/
theorem lines_of_unbroken {s : Bytes} (hs : Unbroken s) :
    lines s = if s = [] then [] else [s] := by
  rw [lines, lines.cut_of_unbroken hs, lines.cut]
  by_cases hnil : s = [] <;> simp [hnil]

/-! ## Chunks -/

theorem chunks.cut_append {s : Bytes} (h : Byte.lineFeed ∉ s) (done : Array Bytes)
    (current t : Bytes) : cut done current (s ++ t) = cut done (s.reverse ++ current) t := by
  induction s generalizing current with
  | nil => rfl
  | cons b s ih =>
    rw [List.mem_cons, not_or] at h
    rw [List.cons_append, cut, if_neg (by simpa using Ne.symm h.1), ih h.2]
    simp

theorem chunks.cut_done (done : Array Bytes) (current s : Bytes) :
    cut done current s = (done ++ (cut #[] current s).1, (cut #[] current s).2) := by
  induction s generalizing done current with
  | nil => simp [cut]
  | cons b s ih =>
    rw [cut, cut]
    split
    · rw [ih (done.push _), ih (#[].push _)]
      simp
    · exact ih done (b :: current)

/-- A text without a line feed has no chunk. -/
theorem chunks_of_notMem {s : Bytes} (h : Byte.lineFeed ∉ s) : chunks s = ([], s) := by
  have hcut := chunks.cut_append h #[] [] []
  rw [List.append_nil, List.append_nil] at hcut
  rw [chunks, hcut]
  simp [chunks.cut]

/-- The first chunk ends at the first line feed. -/
theorem chunks_append_lineFeed {s : Bytes} (h : Byte.lineFeed ∉ s) (t : Bytes) :
    chunks (s ++ Byte.lineFeed :: t)
      = ((s ++ [Byte.lineFeed]) :: (chunks t).1, (chunks t).2) := by
  rw [chunks, chunks.cut_append h, chunks.cut, if_pos (by decide), chunks.cut_done]
  simp [chunks]

/-- A text has no line feed, or it is a chunk with a text behind it. -/
@[elab_as_elim]
theorem lineFeedInduction {motive : Bytes → Prop} (s : Bytes)
    (rest : ∀ s, Byte.lineFeed ∉ s → motive s)
    (chunk : ∀ s t, Byte.lineFeed ∉ s → motive t → motive (s ++ Byte.lineFeed :: t)) :
    motive s := by
  induction h : s.length using Nat.strongRecOn generalizing s with
  | ind n ih =>
    by_cases hmem : Byte.lineFeed ∈ s
    · obtain ⟨u, t, rfl, hu⟩ := List.eq_append_cons_of_mem hmem
      refine chunk u t hu (ih t.length ?_ t rfl)
      rw [← h, List.length_append, List.length_cons]
      omega
    · exact rest s hmem

/-- **Chunk by chunk** the lines of a text are those of the whole text. -/
theorem flatMap_lines_chunks (s : Bytes) :
    (chunks s).1.flatMap lines ++ lines (chunks s).2 = lines s := by
  induction s using lineFeedInduction with
  | rest s h => rw [chunks_of_notMem h]; rfl
  | chunk s t h ih =>
    rw [chunks_append_lineFeed h, lines_append_lineFeed, ← ih, List.flatMap_cons,
      List.append_assoc]

/-! ## Lines put together -/

/-- The text of some lines, each ended by a line feed. -/
def unlines (ls : List Bytes) : Bytes := ls.flatMap fun l => l ++ [Byte.lineFeed]

theorem unlines_cons (l : Bytes) (ls : List Bytes) :
    unlines (l :: ls) = l ++ Byte.lineFeed :: unlines ls := by
  rw [unlines, List.flatMap_cons, List.append_assoc, List.singleton_append]
  rfl

theorem lines_unlines {ls : List Bytes} (h : ∀ l ∈ ls, Unbroken l) : lines (unlines ls) = ls := by
  induction ls with
  | nil => rfl
  | cons l ls ih =>
    have hline : lines (l ++ (LineEnd.lf.bytes ++ unlines ls)) = l :: lines (unlines ls) :=
      lines_line (h l List.mem_cons_self) fun he => absurd he.1 (by decide)
    rw [ih fun m hm => h m (List.mem_cons_of_mem l hm)] at hline
    rw [unlines_cons]
    exact hline

theorem chunks_unlines {ls : List Bytes} (h : ∀ l ∈ ls, Byte.lineFeed ∉ l) :
    chunks (unlines ls) = (ls.map (· ++ [Byte.lineFeed]), []) := by
  induction ls with
  | nil => rfl
  | cons l ls ih =>
    rw [unlines_cons, chunks_append_lineFeed (h l List.mem_cons_self),
      ih fun m hm => h m (List.mem_cons_of_mem l hm)]
    rfl

end HackAssembly
