import HackAssembly.Proofs.Layout
import HackAssembly.Proofs.Reading
import Mathlib.Data.List.Chain
import Mathlib.Data.List.DropRight

/-!
# Where a text is cut

A text is cut in two ways: into lines at its line ends, and, when reading it fails, into what has
been read and what is lost.

There is only one way to cut a text into lines.  `EndedLines` are lines with their ends, and their
text is all of them one after the other.  Every text is the text of such lines (`exists_text_eq`),
since before the first line end there is a line, or there is no line end at all
(`exists_firstLine`).  And no two have the same text (`text_injective`): the line up to the first
line end is determined, because a line has no line end in it, then the line end is, because a lone
`\r` does not meet a `\n`, and so on.  Lines can be joined at a line end (`EndedLines.join`); so
wherever a line end stands in a text, the text is cut there (`ended_of_text_eq`).

When reading fails, the text is cut at its last line feed.  What comes before is taken in as if the
source ended there (`run_gather_failing`), and what comes after is not looked at, although there may
be lines in it that are ended in other ways.
-/

namespace HackAssembly

open Assembly LineEnd

/-! ## Lines with their ends -/

theorem straddled_append_bytes {u t : Bytes} {e : LineEnd} :
    Straddled (u ++ e.bytes) t ↔ e = cr ∧ t.head? = some 0x0A := by
  rw [Straddled, List.getLast?_append_of_ne_nil _ (bytes_ne_nil e)]
  cases e <;> simp [bytes]

theorem Unbroken.getLast?_ne {s : Bytes} (h : Unbroken s) : s.getLast? ≠ some 0x0D := by
  intro hlast
  obtain ⟨u, rfl⟩ := List.getLast?_eq_some_iff.1 hlast
  exact h cr ⟨u, [], by simp [bytes]⟩

/-- A text has no line end, or a line stands before the first one. -/
theorem exists_firstLine (s : Bytes) :
    Unbroken s ∨ ∃ l e t, s = l ++ (LineEnd.bytes e ++ t) ∧ Unbroken l ∧
      ¬ (e = cr ∧ t.head? = some 0x0A) := by
  induction s with
  | nil => exact Or.inl (by decide)
  | cons b s ih =>
    cases hsplit : split? (b :: s) with
    | some p =>
      obtain ⟨e, t⟩ := p
      refine Or.inr ⟨[], e, t, eq_append_of_split? hsplit, by decide, ?_⟩
      intro hmeet
      rw [hmeet.1] at hsplit
      exact head?_ne_of_split?_cr hsplit hmeet.2
    | none =>
      -- no line end starts at `b`, so one in `b :: l` would be one in `l`
      have hcons : ∀ l t, s = l ++ t → Unbroken l → Unbroken (b :: l) := by
        intro l t hs hl e he
        rcases List.infix_cons_iff.1 he with ⟨r, hr⟩ | he
        · apply split?_bytes_append_ne_none e (r ++ t)
          rw [← List.append_assoc, hr, List.cons_append, ← hs, hsplit]
        · exact hl e he
      rcases ih with hs | ⟨l, e, t, hs, hl, hmeet⟩
      · exact Or.inl (hcons s [] (List.append_nil s).symm hs)
      · exact Or.inr ⟨b :: l, e, t, by rw [hs, List.cons_append], hcons l _ hs hl, hmeet⟩

namespace EndedLines

variable {x y : EndedLines}

theorem head?_text {l : Bytes} (h : x.ended.head? = some (l, lf)) (hl : l = []) :
    x.text.head? = some 0x0A := by
  obtain ⟨later, hended⟩ := List.head?_eq_some_iff.1 h
  rw [text, hended, hl]
  rfl

theorem getLast?_text {l : Bytes} (h : x.ended.getLast? = some (l, cr)) (hlast : x.last = []) :
    x.text.getLast? = some 0x0D := by
  obtain ⟨earlier, hended⟩ := List.getLast?_eq_some_iff.1 h
  rw [text, hended, hlast]
  simp [bytes]

def line (l : Bytes) (h : Unbroken l) : EndedLines where
  ended := []
  last := l
  unbroken := ⟨by simp, h⟩
  apart := List.IsChain.nil

/-- Lines on either side of a line end, which does not make up a `\r\n` with what stands next to
it. -/
def join (x : EndedLines) (e : LineEnd) (y : EndedLines)
    (hfront : ¬ Straddled x.text (e.bytes ++ y.text))
    (hback : ¬ Straddled (x.text ++ e.bytes) y.text) : EndedLines where
  ended := x.ended ++ (x.last, e) :: y.ended
  last := y.last
  unbroken := by
    refine ⟨?_, y.unbroken.2⟩
    intro z hz
    rcases List.mem_append.1 hz with hz | hz
    · exact x.unbroken.1 z hz
    · rcases List.mem_cons.1 hz with rfl | hz
      · exact x.unbroken.2
      · exact y.unbroken.1 z hz
  apart := by
    rw [List.isChain_append, List.isChain_cons]
    refine ⟨x.apart, ⟨?_, y.apart⟩, ?_⟩
    · intro (l, f) hz ⟨he, hl, hf⟩
      dsimp only at he hl hf
      subst hf
      exact hback (straddled_append_bytes.2 ⟨he, head?_text hz hl⟩)
    · intro (l, f) hz w hw ⟨hf, hl, he⟩
      obtain rfl : (x.last, e) = w := by simpa using hw
      dsimp only at hf hl he
      subst hf he
      exact hfront ⟨getLast?_text hz hl, rfl⟩

theorem text_join {e : LineEnd} (hfront : ¬ Straddled x.text (e.bytes ++ y.text))
    (hback : ¬ Straddled (x.text ++ e.bytes) y.text) :
    (x.join e y hfront hback).text = x.text ++ (e.bytes ++ y.text) := by
  simp [text, join]

/-- **Every text is a text of lines with their ends.** -/
theorem exists_text_eq (s : Bytes) : ∃ x : EndedLines, x.text = s := by
  induction h : s.length using Nat.strongRecOn generalizing s with
  | ind n ih =>
    rcases exists_firstLine s with hs | ⟨l, e, t, hs, hl, hmeet⟩
    · exact ⟨line s hs, rfl⟩
    · have hlt : t.length < n := by
        have hpos := List.length_pos_of_ne_nil (bytes_ne_nil e)
        rw [← h, hs, List.length_append, List.length_append]
        omega
      obtain ⟨y, rfl⟩ := ih t.length hlt t rfl
      have hfront : ¬ Straddled (line l hl).text (e.bytes ++ y.text) :=
        fun hst => hl.getLast?_ne hst.1
      have hback : ¬ Straddled ((line l hl).text ++ e.bytes) y.text :=
        fun hst => hmeet (straddled_append_bytes.1 hst)
      exact ⟨(line l hl).join e y hfront hback, (text_join hfront hback).trans hs.symm⟩

/-- The line up to the first line end, and that line end, are determined by the text. -/
theorem firstLine_unique {l k : Bytes} {e f : LineEnd} {s t : Bytes} (hl : Unbroken l)
    (hk : Unbroken k) (hs : ¬ (e = cr ∧ s.head? = some 0x0A))
    (ht : ¬ (f = cr ∧ t.head? = some 0x0A)) (h : l ++ (e.bytes ++ s) = k ++ (f.bytes ++ t)) :
    l = k ∧ e = f ∧ s = t := by
  have hlines := congrArg HackAssembly.lines h
  rw [lines_line hl hs, lines_line hk ht] at hlines
  obtain ⟨rfl, -⟩ := List.cons.inj hlines
  have hsplit := congrArg split? (List.append_cancel_left h)
  rw [split?_bytes_append hs, split?_bytes_append ht] at hsplit
  obtain ⟨rfl, rfl⟩ := Prod.mk.inj (Option.some.inj hsplit)
  exact ⟨rfl, rfl, rfl⟩

theorem not_unbroken_append (l : Bytes) (e : LineEnd) (t : Bytes) :
    ¬ Unbroken (l ++ (e.bytes ++ t)) :=
  fun h => h e ⟨l, t, List.append_assoc l e.bytes t⟩

theorem text_cons (p : Bytes × LineEnd) (ended : List (Bytes × LineEnd)) (last : Bytes) :
    ((p :: ended).flatMap fun z => z.1 ++ z.2.bytes) ++ last
      = p.1 ++ (p.2.bytes ++ ((ended.flatMap fun z => z.1 ++ z.2.bytes) ++ last)) := by
  simp

/-- **No two lists of lines with their ends have the same text.** -/
theorem text_injective (h : x.text = y.text) : x = y := by
  obtain ⟨m, last, hm, hchain⟩ := x
  obtain ⟨n, last', hn, hchain'⟩ := y
  dsimp only [text] at h
  suffices heq : m = n ∧ last = last' by
    obtain ⟨rfl, rfl⟩ := heq
    rfl
  -- the first lines are compared and taken off both sides, as long as there are any
  induction m generalizing n with
  | nil =>
    cases n with
    | nil => exact ⟨rfl, h⟩
    | cons q n =>
      rw [text_cons, List.flatMap_nil, List.nil_append] at h
      exact absurd (h ▸ hm.2) (not_unbroken_append q.1 q.2 _)
  | cons p m ih =>
    cases n with
    | nil =>
      rw [text_cons, List.flatMap_nil, List.nil_append] at h
      exact absurd (h.symm ▸ hn.2) (not_unbroken_append p.1 p.2 _)
    | cons q n =>
      obtain ⟨l, e⟩ := p
      obtain ⟨k, f⟩ := q
      have hmrest : ∀ z ∈ m, Unbroken z.1 := fun z hz => hm.1 z (List.mem_cons_of_mem _ hz)
      have hnrest : ∀ z ∈ n, Unbroken z.1 := fun z hz => hn.1 z (List.mem_cons_of_mem _ hz)
      rw [text_cons, text_cons] at h
      obtain ⟨rfl, rfl, hrest⟩ := firstLine_unique (hm.1 (l, e) List.mem_cons_self)
        (hn.1 (k, f) List.mem_cons_self) (not_meets_of_apart hmrest hm.2 hchain)
        (not_meets_of_apart hnrest hn.2 hchain') h
      obtain ⟨rfl, rfl⟩ :=
        ih ⟨hmrest, hm.2⟩ hchain.of_cons n ⟨hnrest, hn.2⟩ hchain'.of_cons hrest
      exact ⟨rfl, rfl⟩

/-- A text is cut at each of its line ends. -/
theorem ended_of_text_eq {u v : Bytes} {e : LineEnd} (h : x.text = u ++ (e.bytes ++ v))
    (hfront : ¬ Straddled u (e.bytes ++ v)) (hback : ¬ Straddled (u ++ e.bytes) v) :
    ∃ y z : EndedLines, y.text = u ∧ z.text = v ∧
      x.ended = y.ended ++ (y.last, e) :: z.ended ∧ x.last = z.last := by
  obtain ⟨y, rfl⟩ := exists_text_eq u
  obtain ⟨z, rfl⟩ := exists_text_eq v
  have hjoin : x = y.join e z hfront hback := text_injective (h.trans (text_join _ _).symm)
  exact ⟨y, z, rfl, rfl, by rw [hjoin]; rfl, by rw [hjoin]; rfl⟩

end EndedLines

/-- **The lines of a text are cut in the only way there is.**  Every text is in exactly one way
lines with their ends, where no line end stands in a line, a lone `\r` does not meet a `\n`, and the
last line is not ended and counts unless it is empty.  The lines of the text are these, also when
they are cut among its decoded characters.  And wherever a line end stands in the text, not as one
half of a `\r\n`, the text is cut there. -/
theorem lines_are_cut_uniquely (s : Bytes) :
    ∃ x : EndedLines, x.text = s ∧ lines s = x.lines ∧ cutLines [] (characters s) = x.lines ∧
      (∀ y : EndedLines, y.text = s → y = x) ∧
      ∀ u e v, s = u ++ (LineEnd.bytes e ++ v) → ¬ Straddled u (e.bytes ++ v) →
        ¬ Straddled (u ++ e.bytes) v →
        ∃ y z : EndedLines, y.text = u ∧ z.text = v ∧
          x.ended = y.ended ++ (y.last, e) :: z.ended ∧ x.last = z.last := by
  obtain ⟨x, rfl⟩ := EndedLines.exists_text_eq s
  refine ⟨x, rfl, x.lines_text, ?_, ?_, ?_⟩
  · rw [← lines_eq_cutLines, x.lines_text]
  · intro y hy
    exact EndedLines.text_injective hy
  · intro u e v hs hfront hback
    exact EndedLines.ended_of_text_eq hs hfront hback

/-- Encodings that are broken off before a `\r\n` and before a separator, and a byte that goes on
with none. -/
theorem lines_are_cut_uniquely_truncated :
    lines [0xC2, 0x0D, 0x0A, 0xE2, 0x80, 0xE2, 0x80, 0xA8, 0x85] = [[0xC2], [0xE2, 0x80], [0x85]] ∧
      ¬ Straddled [0xC2] [0x0D, 0x0A, 0xE2, 0x80, 0xE2, 0x80, 0xA8, 0x85] ∧
      ¬ Straddled [0xC2, 0x0D, 0x0A] [0xE2, 0x80, 0xE2, 0x80, 0xA8, 0x85] ∧
      ∃ y z : EndedLines, y.text = [0xC2] ∧ z.text = [0xE2, 0x80, 0xE2, 0x80, 0xA8, 0x85] ∧
        [([0xC2], crlf), ([0xE2, 0x80], lineSeparator)]
          = y.ended ++ (y.last, crlf) :: z.ended := by
  let w : EndedLines :=
    { ended := [([0xC2], crlf), ([0xE2, 0x80], lineSeparator)]
      last := [0x85]
      unbroken := by decide +kernel
      apart := by decide }
  have hfront : ¬ Straddled [0xC2] [0x0D, 0x0A, 0xE2, 0x80, 0xE2, 0x80, 0xA8, 0x85] :=
    fun hst => absurd hst.1 (by decide)
  have hback : ¬ Straddled [0xC2, 0x0D, 0x0A] [0xE2, 0x80, 0xE2, 0x80, 0xA8, 0x85] :=
    fun hst => absurd hst.1 (by decide)
  obtain ⟨x, -, hlines, -, hunique, hcut⟩ :=
    lines_are_cut_uniquely [0xC2, 0x0D, 0x0A, 0xE2, 0x80, 0xE2, 0x80, 0xA8, 0x85]
  obtain rfl : w = x := hunique w rfl
  obtain ⟨y, z, hy, hz, hended, -⟩ := hcut [0xC2] crlf _ rfl hfront hback
  exact ⟨hlines, hfront, hback, y, z, hy, hz, hended⟩

/-! ## Reading that fails -/

theorem chunks_append {kept tail : Bytes} (hkept : kept = [] ∨ kept.getLast? = some Byte.lineFeed)
    (htail : Byte.lineFeed ∉ tail) : chunks (kept ++ tail) = ((chunks kept).1, tail) := by
  induction kept using lineFeedInduction with
  | rest s hs =>
    obtain rfl : s = [] := by
      rcases hkept with hnil | hlast
      · exact hnil
      · exact absurd (List.mem_of_getLast? hlast) hs
    rw [List.nil_append, chunks_of_notMem htail]
    rfl
  | chunk s t hs ih =>
    have ht : t = [] ∨ t.getLast? = some Byte.lineFeed := by
      cases t with
      | nil => exact Or.inl rfl
      | cons b t => exact Or.inr (by simpa using hkept)
    rw [List.append_assoc, List.cons_append, chunks_append_lineFeed hs, ih ht,
      chunks_append_lineFeed hs]

def throughLastLineFeed (s : Bytes) : Bytes := s.rdropWhile (· != Byte.lineFeed)

theorem throughLastLineFeed_eq_nil_or (s : Bytes) : throughLastLineFeed s = [] ∨
    (throughLastLineFeed s).getLast? = some Byte.lineFeed := by
  by_cases hnil : throughLastLineFeed s = []
  · exact Or.inl hnil
  · have hlast := List.rdropWhile_last_not (· != Byte.lineFeed) s hnil
    rw [bne_iff_ne, not_not] at hlast
    exact Or.inr (by rw [List.getLast?_eq_some_getLast hnil]; exact congrArg some hlast)

theorem exists_eq_throughLastLineFeed_append (s : Bytes) :
    ∃ tail, s = throughLastLineFeed s ++ tail ∧ Byte.lineFeed ∉ tail := by
  refine ⟨s.rtakeWhile (· != Byte.lineFeed), List.rdropWhile_append_rtakeWhile.symm, ?_⟩
  intro hmem
  have hne : (Byte.lineFeed != Byte.lineFeed) = true :=
    List.mem_rtakeWhile_imp (p := (· != Byte.lineFeed)) hmem
  exact absurd hne (by decide)

/-- **A source that fails** is taken in up to its last line feed as one that ends there. -/
theorem run_gather_failing (a : Assembler) {kept tail : Bytes}
    (hkept : kept = [] ∨ kept.getLast? = some Byte.lineFeed) (htail : Byte.lineFeed ∉ tail)
    (cause : Bytes) :
    (gather { bytes := kept ++ tail, failure := some cause }).run a
      = match (gather { bytes := kept, failure := none }).run a with
        | .ok _ b => .error (.unreadable (b.line + 1) cause) b
        | .error fault b => .error fault b := by
  have hwhole : chunks kept = ((chunks kept).1, []) := by
    have happend := chunks_append hkept (List.not_mem_nil (a := Byte.lineFeed))
    rwa [List.append_nil] at happend
  rw [gather, gather, chunks_append hkept htail, hwhole]
  dsimp only
  cases hrun : ((chunks kept).1.forM gatherText).run a with
  | error fault b => rw [run_bind_of_error hrun, run_bind_of_error hrun]
  | ok _ b =>
    rw [run_bind_of_ok hrun, run_bind_of_ok hrun]
    rfl

/-- Lines are all counted and taken in, or one of them is rejected. -/
theorem takeIn_outcome (ls : List Bytes) (a : Assembler) :
    (∃ b, takeIn ls a = .ok () b ∧ b.line = a.line + ls.length) ∨
      ∃ d b, takeIn ls a = .error (.rejected d) b := by
  induction ls generalizing a with
  | nil => exact Or.inl ⟨a, rfl, rfl⟩
  | cons line later ih =>
    rw [takeIn]
    obtain ⟨b, hrun, hcount⟩ | ⟨d, -, hrun⟩ :=
      gatherContent_outcome { a with line := a.line + 1 } (normalise line)
    · rw [hrun]
      dsimp only at hcount ⊢
      obtain ⟨c, hc, hline⟩ | hrejected := ih b
      · refine Or.inl ⟨c, hc, ?_⟩
        rw [hline, hcount, List.length_cons]
        omega
      · exact Or.inr hrejected
    · rw [hrun]
      exact Or.inr ⟨d, _, rfl⟩

/-- **A read failure cuts the source at its last line feed.**  From every state, the first pass over
a source that fails does what it does over the text up to and including the last line feed, if there
is one: it is rejected for the same problem in the same state, or else it leaves the state behind
that it leaves there, all lines counted, and the fault has the cause of the failure and the number
of the next line.  What comes after the last line feed can be replaced by any text without one. -/
theorem failure_cuts_at_last_line_feed (a : Assembler) (s cause : Bytes) :
    (∃ tail, s = throughLastLineFeed s ++ tail ∧ Byte.lineFeed ∉ tail) ∧
      (throughLastLineFeed s = [] ∨
        (throughLastLineFeed s).getLast? = some Byte.lineFeed) ∧
      ((∃ d b, (gather { bytes := throughLastLineFeed s, failure := none }).run a
            = .error (.rejected d) b ∧
          (gather { bytes := s, failure := some cause }).run a = .error (.rejected d) b) ∨
        ∃ b, (gather { bytes := throughLastLineFeed s, failure := none }).run a = .ok () b ∧
          b.line = a.line + (lines (throughLastLineFeed s)).length ∧
          (gather { bytes := s, failure := some cause }).run a
            = .error (.unreadable (b.line + 1) cause) b) ∧
      ∀ other, Byte.lineFeed ∉ other →
        (gather { bytes := throughLastLineFeed s ++ other, failure := some cause }).run a
          = (gather { bytes := s, failure := some cause }).run a := by
  obtain ⟨tail, hs, htail⟩ := exists_eq_throughLastLineFeed_append s
  have hkept := throughLastLineFeed_eq_nil_or s
  have hfailing := run_gather_failing a hkept htail cause
  rw [← hs] at hfailing
  refine ⟨⟨tail, hs, htail⟩, hkept, ?_, ?_⟩
  · have hlines : (gather { bytes := throughLastLineFeed s, failure := none }).run a
        = takeIn (lines (throughLastLineFeed s)) a := by
      rw [gather_eq_forM, run_forM_gatherLine_eq]
    rw [hlines] at hfailing ⊢
    obtain ⟨b, hb, hcount⟩ | ⟨d, b, hb⟩ := takeIn_outcome (lines (throughLastLineFeed s)) a
    · rw [hb] at hfailing
      exact Or.inr ⟨b, hb, hcount, hfailing⟩
    · rw [hb] at hfailing
      exact Or.inl ⟨d, b, hb, hfailing⟩
  · intro other hother
    rw [hfailing, run_gather_failing a hkept hother cause]

/-- One line is counted.  What follows it, a declaration that a `\r` ends and a line that would be
rejected, goes unnoticed, and so does any text in its place. -/
theorem failure_cuts_at_last_line_feed_unnoticed :
    throughLastLineFeed (ascii "@x\n(L)\r(1)\r") = ascii "@x\n" ∧
      Byte.lineFeed ∉ ascii "@1y\r" ∧
      ∃ b, (gather ⟨ascii "@x\n", none⟩).run (.fresh .strict) = .ok () b ∧
        (gather ⟨ascii "@x\n(L)\r(1)\r", some (ascii "gone")⟩).run (.fresh .strict)
          = .error (.unreadable 2 (ascii "gone")) b ∧
        (gather ⟨ascii "@x\n@1y\r", some (ascii "gone")⟩).run (.fresh .strict)
          = .error (.unreadable 2 (ascii "gone")) b := by
  have hkept : throughLastLineFeed (ascii "@x\n(L)\r(1)\r") = ascii "@x\n" := by decide
  have hother : Byte.lineFeed ∉ ascii "@1y\r" := by decide
  have hfault : Outcome.fault? ((gather ⟨ascii "@x\n", none⟩).run (.fresh .strict)) = none := by
    decide +kernel
  obtain ⟨-, -, ⟨d, b, hrun, -⟩ | ⟨b, hrun, hcount, hfailing⟩, hreplaced⟩ :=
    failure_cuts_at_last_line_feed (.fresh .strict) (ascii "@x\n(L)\r(1)\r") (ascii "gone")
  · rw [hkept] at hrun
    rw [hrun] at hfault
    cases hfault
  · have hsame := hreplaced (ascii "@1y\r") hother
    rw [hkept] at hrun hcount hsame
    have hline : b.line = 1 := hcount
    rw [hline] at hfailing
    exact ⟨hkept, hother, b, hrun, hfailing, hsame.trans hfailing⟩

end HackAssembly
