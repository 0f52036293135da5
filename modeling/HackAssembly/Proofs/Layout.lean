import HackAssembly.Proofs.Renumbering
import Mathlib.Logic.Function.Basic

/-!
# Layout

How a source is laid out does not matter.  Two sources with the same statements, on whatever lines
and with whatever blank lines, comments and white space between them, are assembled alike: the
numbers of the lines of the one stand wherever those of the other do, and nothing else differs, also
where strict mode stops halfway (`layout_does_not_matter`).  And two sources with the same lines are
assembled to the very same state, however their lines are ended (`line_ends_do_not_matter`).

For the first part the source is taken out of the first pass.  Blank lines are only counted, so the
pass takes in the statements of the program one by one, each at the number of its line, and ends
with the number of all lines (`run_gather_eq`).  Two programs that differ in their numbers are then
taken in alike, since no action looks at a number.  Lines are numbered in ascending order, so that
the numbers of the one program determine those of the other (`exists_renumber`).
-/

namespace HackAssembly

open Assembly Program

/-! ## The first pass over statements -/

def Assembly.gatherStatement (st : Statement) : Assembly Unit := do
  modify fun a => { a with line := st.line }
  gatherContent st.content

/-- Takes in the statements of a program whose source has a number of lines. -/
def Assembly.gatherProgram (p : Program) (total : Nat) : Assembly Unit := do
  p.forM gatherStatement
  modify fun a => { a with line := total }

theorem line_gatherContent {content : Bytes} {a b : Assembler}
    (h : (gatherContent content).run a = .ok () b) : b.line = a.line := by
  obtain ⟨c, hrun, hline⟩ | ⟨d, -, hrun⟩ := gatherContent_outcome a content
  · rw [hrun] at h
    cases h
    exact hline
  · rw [hrun] at h
    cases h

theorem run_forM_gatherLine (ls : List Bytes) {a : Assembler} (h : a.line = 0) :
    (ls.forM gatherLine).run a = (gatherProgram (ofLines ls) ls.length).run a := by
  induction ls using List.reverseRecOn with
  | nil =>
    obtain ⟨mode, line⟩ := a
    cases h
    rfl
  | append_singleton ls l ih =>
    have hline : ∀ b : Assembler, (gatherLine l).run { b with line := ls.length }
        = (gatherContent (normalise l)).run { b with line := ls.length + 1 } := fun _ => rfl
    rw [forM_concat, ofLines_concat, List.length_append, List.length_singleton, gatherProgram]
    cases hp : ((ofLines ls).forM gatherStatement).run a with
    | error fault b =>
      have hls : (ls.forM gatherLine).run a = .error fault b := by
        rw [ih, gatherProgram, run_bind_of_error hp]
      rw [run_bind_of_error hls, forM_append, run_bind_of_error (run_bind_of_error hp _)]
    | ok _ b =>
      have hls : (ls.forM gatherLine).run a = .ok () { b with line := ls.length } := by
        rw [ih, gatherProgram, run_bind_of_ok hp]
        rfl
      rw [run_bind_of_ok hls, hline]
      by_cases hblank : normalise l = []
      · rw [if_pos hblank, hblank, List.append_nil, run_bind_of_ok hp]
        rfl
      · let st : Statement := { line := ls.length + 1, content := normalise l }
        have hst : ((ofLines ls ++ [st]).forM gatherStatement).run a
            = (gatherContent (normalise l)).run { b with line := ls.length + 1 } := by
          rw [forM_concat, run_bind_of_ok hp]
          rfl
        rw [if_neg hblank]
        -- the last line has just been counted, unless the run is over
        cases hcontent : (gatherContent (normalise l)).run { b with line := ls.length + 1 } with
        | error fault c => rw [run_bind_of_error (hst.trans hcontent)]
        | ok _ c =>
          have hcount : c.line = ls.length + 1 := line_gatherContent hcontent
          rw [run_bind_of_ok (hst.trans hcontent), ← hcount]
          rfl

/-- **The first pass takes in the statements of the program** and counts the lines of the text. -/
theorem run_gather_eq (s : Bytes) {a : Assembler} (h : a.line = 0) :
    (gather { bytes := s, failure := none }).run a
      = (gatherProgram (ofText s) (lines s).length).run a := by
  rw [gather_eq_forM, run_forM_gatherLine (lines s) h, ofText]

/-! ## Numbers of lines -/

theorem line_of_mem_ofLines {ls : List Bytes} :
    ∀ st ∈ ofLines ls, 1 ≤ st.line ∧ st.line ≤ ls.length := by
  induction ls using List.reverseRecOn with
  | nil =>
    intro st hst
    cases hst
  | append_singleton ls l ih =>
    intro st hst
    rw [ofLines_concat, List.mem_append] at hst
    rw [List.length_append, List.length_singleton]
    rcases hst with hst | hst
    · have hold := ih st hst
      omega
    · split at hst
      · cases hst
      · rw [List.mem_singleton.1 hst]
        exact ⟨Nat.le_add_left 1 _, Nat.le_refl _⟩

theorem nodup_line_ofLines (ls : List Bytes) : ((ofLines ls).map Statement.line).Nodup := by
  induction ls using List.reverseRecOn with
  | nil => exact List.nodup_nil
  | append_singleton ls l ih =>
    rw [ofLines_concat, List.map_append]
    split
    · simpa using ih
    · refine List.Nodup.append ih (List.nodup_singleton _) ?_
      intro n hn hlast
      obtain ⟨st, hst, rfl⟩ := List.mem_map.1 hn
      have hcount := (line_of_mem_ofLines st hst).2
      have hnew : st.line = ls.length + 1 := by simpa using hlast
      omega

/-- Two programs with the same contents differ in the numbers of their lines. -/
theorem exists_renumber {p q : Program} (hlines : (p.map Statement.line).Nodup)
    (hpos : ∀ st ∈ p, 1 ≤ st.line)
    (h : p.map Statement.content = q.map Statement.content) :
    ∃ number : Nat → Nat, number 0 = 0 ∧ q = p.map (Statement.renumber number) := by
  induction p generalizing q with
  | nil =>
    cases q with
    | nil => exact ⟨id, rfl, rfl⟩
    | cons su q => cases h
  | cons st p ih =>
    cases q with
    | nil => cases h
    | cons su q =>
      rw [List.map_cons, List.map_cons] at h
      rw [List.map_cons, List.nodup_cons] at hlines
      obtain ⟨hcontent, hrest⟩ := List.cons.inj h
      obtain ⟨number, hzero, hq⟩ :=
        ih hlines.2 (fun x hx => hpos x (List.mem_cons_of_mem st hx)) hrest
      have hfirst := hpos st List.mem_cons_self
      refine ⟨Function.update number st.line su.line, ?_, ?_⟩
      · rw [Function.update_of_ne (by omega), hzero]
      · rw [List.map_cons, hq]
        congr 1
        · rw [Statement.renumber, Function.update_self, hcontent]
        · -- the number of this line stands nowhere else
          refine List.map_congr_left fun x hx => ?_
          have hne : x.line ≠ st.line := by
            intro hsame
            exact hlines.1 (hsame ▸ List.mem_map_of_mem hx)
          rw [Statement.renumber, Statement.renumber, Function.update_of_ne hne]

/-! ## Runs over programs that differ in their numbers -/

theorem Renumbers.gatherStatement (number : Nat → Nat) (st : Statement) :
    Renumbers number number (gatherStatement st) (gatherStatement (st.renumber number)) :=
  Renumbers.bind (Renumbers.modify fun _ => rfl) fun _ => Renumbers.gatherContent st.content

theorem Renumbers.forM_gatherStatement (number : Nat → Nat) (p : Program) :
    Renumbers number number (p.forM Assembly.gatherStatement)
      ((p.map (Statement.renumber number)).forM Assembly.gatherStatement) := by
  rw [List.forM_eq_forM, List.forM_map]
  exact Renumbers.forM (Renumbers.gatherStatement number) p

theorem run_gather_renumber {s t : Bytes} {number : Nat → Nat} (hzero : number 0 = 0)
    (h : ofText t = (ofText s).map (Statement.renumber number)) (mode : Mode) :
    (∃ fault a, (gather { bytes := s, failure := none }).run (.fresh mode) = .error fault a ∧
      (gather { bytes := t, failure := none }).run (.fresh mode)
        = .error (fault.renumber number) (a.renumber number number)) ∨
    ∃ a, (gather { bytes := s, failure := none }).run (.fresh mode) = .ok () a ∧
      (gather { bytes := t, failure := none }).run (.fresh mode)
        = .ok () (a.renumber number fun _ => (lines t).length) := by
  have hfresh : (Assembler.fresh mode).renumber number number = .fresh mode := by
    simp [Assembler.renumber, Assembler.fresh, hzero]
  have hrun := Renumbers.forM_gatherStatement number (ofText s) (.fresh mode)
  rw [hfresh, ← h] at hrun
  rw [run_gather_eq s rfl, run_gather_eq t rfl, gatherProgram, gatherProgram]
  cases hp : ((ofText s).forM gatherStatement).run (.fresh mode) with
  | error fault a =>
    rw [hp] at hrun
    exact Or.inl ⟨fault, a, run_bind_of_error hp _, run_bind_of_error hrun _⟩
  | ok _ a =>
    rw [hp] at hrun
    exact Or.inr ⟨{ a with line := (lines s).length }, run_bind_of_ok hp _, run_bind_of_ok hrun _⟩

theorem run_assemble_renumber {s t : Bytes} {number : Nat → Nat} (hzero : number 0 = 0)
    (h : ofText t = (ofText s).map (Statement.renumber number)) {a₀ b₀ : Assembler}
    (hmode : a₀.mode = b₀.mode) :
    ∃ count, (count = number ∨ count = fun _ => (lines t).length) ∧
      (assemble { bytes := t, failure := none }).run b₀
        = Outcome.renumber number count ((assemble { bytes := s, failure := none }).run a₀) := by
  rw [run_assemble_eq, run_assemble_eq, ← hmode]
  rcases run_gather_renumber hzero h a₀.mode with ⟨fault, a, hs, ht⟩ | ⟨a, hs, ht⟩
  · refine ⟨number, Or.inl rfl, run_thirdPass_renumber ?_⟩
    rw [hs, ht]
    rfl
  · refine ⟨_, Or.inr rfl, run_thirdPass_renumber ?_⟩
    rw [hs, ht]
    rfl

/-- **Layout does not matter.**  Two texts with the same contents of lines that are not blank have
the same statements but for their numbers.  They are assembled alike in either mode: when the
numbers of the one's statements are replaced by those of the other's in whatever a run leaves
behind, whether it succeeds or not, nothing else differs but the count of the lines that were read.
How other numbers are replaced makes no difference, so there are none. -/
theorem layout_does_not_matter (s t : Bytes)
    (h : ((lines s).map normalise).filter (· ≠ []) = ((lines t).map normalise).filter (· ≠ []))
    (a₀ b₀ : Assembler) (hmode : a₀.mode = b₀.mode) :
    (∃ number : Nat → Nat, number 0 = 0 ∧
      ofText t = (ofText s).map (Statement.renumber number)) ∧
    ∀ number : Nat → Nat, number 0 = 0 → ofText t = (ofText s).map (Statement.renumber number) →
      ∃ count, (count = number ∨ count = fun _ => (lines t).length) ∧
        (assemble { bytes := t, failure := none }).run b₀
          = Outcome.renumber number count ((assemble { bytes := s, failure := none }).run a₀) := by
  have hcontents : (ofText s).map Statement.content = (ofText t).map Statement.content := by
    rw [ofText, ofText, content_ofLines, content_ofLines, h]
  constructor
  · exact exists_renumber (nodup_line_ofLines (lines s))
      (fun st hst => (line_of_mem_ofLines st hst).1) hcontents
  · intro number hzero hnumber
    exact run_assemble_renumber hzero hnumber hmode

/-- Two statements on lines 1 and 2, and the same ones on lines 2 and 4.  Strict mode rejects the
second one in either text. -/
theorem layout_does_not_matter_rejected :
    ((lines (ascii "@i\n@1y\n")).map normalise).filter (· ≠ [])
        = ((lines (ascii "// c\r\n\t@ i // x\n\n@1y")).map normalise).filter (· ≠ []) ∧
      Outcome.fault? ((assemble ⟨ascii "@i\n@1y\n", none⟩).run (.fresh .strict))
        = some (.rejected ⟨2, ascii "@1y", .operandForm⟩) ∧
      Outcome.fault? ((assemble ⟨ascii "// c\r\n\t@ i // x\n\n@1y", none⟩).run (.fresh .strict))
        = some (.rejected ⟨4, ascii "@1y", .operandForm⟩) := by
  have hs : ofText (ascii "@i\n@1y\n") = [⟨1, ascii "@i"⟩, ⟨2, ascii "@1y"⟩] := by decide +kernel
  have ht : ofText (ascii "// c\r\n\t@ i // x\n\n@1y") = [⟨2, ascii "@i"⟩, ⟨4, ascii "@1y"⟩] := by
    decide +kernel
  have hsame : ((lines (ascii "@i\n@1y\n")).map normalise).filter (· ≠ [])
      = ((lines (ascii "// c\r\n\t@ i // x\n\n@1y")).map normalise).filter (· ≠ []) := by
    decide +kernel
  have hfault : Outcome.fault? ((assemble ⟨ascii "@i\n@1y\n", none⟩).run (.fresh .strict))
      = some (.rejected ⟨2, ascii "@1y", .operandForm⟩) := by decide +kernel
  obtain ⟨count, -, hrun⟩ := (layout_does_not_matter _ _ hsame (.fresh .strict)
    (.fresh .strict) rfl).2 (2 * ·) rfl (by rw [hs, ht]; rfl)
  refine ⟨hsame, hfault, ?_⟩
  rw [hrun, Outcome.fault?_renumber, hfault]
  rfl

/-! ## Line ends -/

/-- The count of lines behind the first pass. -/
theorem line_assemble {s : Bytes} {a₀ a : Assembler}
    (h : (gather { bytes := s, failure := none }).run (.fresh a₀.mode) = .ok () a) :
    (Outcome.state ((assemble { bytes := s, failure := none }).run a₀)).line
      = (lines s).length := by
  -- the text is renumbered to itself, so that only the count is replaced, which no later pass reads
  have hself : ofText s = (ofText s).map (Statement.renumber id) := (List.map_id _).symm
  rcases run_gather_renumber rfl hself a₀.mode with ⟨fault, b, hb, -⟩ | ⟨b, hb, hsame⟩
  · rw [h] at hb
    cases hb
  · have hgather : (gather { bytes := s, failure := none }).run (.fresh a₀.mode)
        = Outcome.renumber id (fun _ => (lines s).length)
          ((gather { bytes := s, failure := none }).run (.fresh a₀.mode)) :=
      hsame.trans (congrArg (Outcome.renumber id _) hb).symm
    rw [run_assemble_eq, run_thirdPass_renumber hgather]
    cases (thirdPass { bytes := s, failure := none }).run (.fresh a₀.mode) <;> rfl

/-- Lines, each with its end, and behind them a last line without one, unless that is empty.  A lone
`\r` does not meet the `\n` of an empty line. -/
structure EndedLines where
  ended : List (Bytes × LineEnd)
  last : Bytes
  unbroken : (∀ x ∈ ended, Unbroken x.1) ∧ Unbroken last
  apart : ended.IsChain fun x y => ¬ (x.2 = .cr ∧ y.1 = [] ∧ y.2 = .lf)

namespace EndedLines

def lines (x : EndedLines) : List Bytes :=
  x.ended.map Prod.fst ++ if x.last = [] then [] else [x.last]

def text (x : EndedLines) : Bytes := (x.ended.flatMap fun y => y.1 ++ y.2.bytes) ++ x.last

end EndedLines

theorem Unbroken.head?_ne {s : Bytes} (h : Unbroken s) : s.head? ≠ some 0x0A := by
  intro hhead
  cases s with
  | nil => cases hhead
  | cons b s =>
    cases hhead
    exact h .lf ⟨[], s, rfl⟩

/-- What stands behind a lone `\r` does not start with `\n`. -/
theorem head?_flatMap_ne {ended : List (Bytes × LineEnd)} {last l : Bytes}
    (hended : ∀ x ∈ ended, Unbroken x.1) (hlast : Unbroken last)
    (happart : ((l, LineEnd.cr) :: ended).IsChain fun x y => ¬ (x.2 = .cr ∧ y.1 = [] ∧ y.2 = .lf)) :
    ((ended.flatMap fun y => y.1 ++ y.2.bytes) ++ last).head? ≠ some 0x0A := by
  cases ended with
  | nil => exact hlast.head?_ne
  | cons y ended =>
    obtain ⟨m, e⟩ := y
    have hm : Unbroken m := hended (m, e) List.mem_cons_self
    have hnext := (List.isChain_cons_cons.1 happart).1
    cases m with
    | nil => cases e <;> simp_all [LineEnd.bytes]
    | cons b m => simpa using hm.head?_ne

/-- A line end does not meet what stands behind it in a `\r\n`. -/
theorem not_meets_of_apart {ended : List (Bytes × LineEnd)} {last l : Bytes} {e : LineEnd}
    (hended : ∀ x ∈ ended, Unbroken x.1) (hlast : Unbroken last)
    (happart : ((l, e) :: ended).IsChain fun x y => ¬ (x.2 = .cr ∧ y.1 = [] ∧ y.2 = .lf)) :
    ¬ (e = .cr ∧ ((ended.flatMap fun y => y.1 ++ y.2.bytes) ++ last).head? = some 0x0A) := by
  intro ⟨hcr, hhead⟩
  subst hcr
  exact head?_flatMap_ne hended hlast happart hhead

theorem lines_flatMap_append {ended : List (Bytes × LineEnd)} {last : Bytes}
    (hended : ∀ x ∈ ended, Unbroken x.1) (hlast : Unbroken last)
    (happart : ended.IsChain fun x y => ¬ (x.2 = .cr ∧ y.1 = [] ∧ y.2 = .lf)) :
    lines ((ended.flatMap fun y => y.1 ++ y.2.bytes) ++ last)
      = ended.map Prod.fst ++ if last = [] then [] else [last] := by
  induction ended with
  | nil => exact lines_of_unbroken hlast
  | cons x ended ih =>
    obtain ⟨l, e⟩ := x
    have hrest : ∀ y ∈ ended, Unbroken y.1 := fun y hy => hended y (List.mem_cons_of_mem _ hy)
    rw [List.flatMap_cons, List.append_assoc, List.append_assoc,
      lines_line (hended (l, e) List.mem_cons_self) (not_meets_of_apart hrest hlast happart),
      ih hrest happart.of_cons]
    rfl

/-- **Cutting gives the lines back**, whatever their ends are. -/
theorem EndedLines.lines_text (x : EndedLines) : HackAssembly.lines x.text = x.lines :=
  lines_flatMap_append x.unbroken.1 x.unbroken.2 x.apart

/-- **Line ends do not matter.**  Runs over the same lines, however these are ended, have the same
outcome and leave the same state behind, all line numbers included; and when the first pass is done,
the count of lines is the number of lines. -/
theorem line_ends_do_not_matter (x y : EndedLines) (h : x.lines = y.lines) (a₀ b₀ : Assembler)
    (hmode : a₀.mode = b₀.mode) :
    (assemble { bytes := x.text, failure := none }).run a₀
        = (assemble { bytes := y.text, failure := none }).run b₀ ∧
      ∀ a, (gather { bytes := x.text, failure := none }).run (.fresh a₀.mode) = .ok () a →
        (Outcome.state ((assemble { bytes := x.text, failure := none }).run a₀)).line
          = x.lines.length := by
  have hgather : gather { bytes := x.text, failure := none }
      = gather { bytes := y.text, failure := none } := by
    rw [gather_eq_forM, gather_eq_forM, x.lines_text, y.lines_text, h]
  constructor
  · have hthird : thirdPass { bytes := x.text, failure := none }
        = thirdPass { bytes := y.text, failure := none } := by
      rw [thirdPass, thirdPass, secondPass, secondPass, firstPass, firstPass, hgather]
    rw [run_assemble_eq, run_assemble_eq, hthird, hmode]
  · intro a ha
    rw [line_assemble ha, x.lines_text]

/-- A line that is no valid text before a separator, a lone `\r` before other line ends, and a last
line with and without an end. -/
theorem line_ends_do_not_matter_mixed : ∃ x y : EndedLines, x.lines = y.lines ∧
    x.text = ascii "@x\r" ++ [0xC2, 0xE2, 0x80, 0xA8] ++ ascii "\r\n(L)" ++ [0xC2, 0x85]
      ++ ascii "@L" ∧
    y.text = ascii "@x\n" ++ [0xC2, 0xE2, 0x80, 0xA9] ++ ascii "\r(L)\r\n@L\n" ∧
    (assemble { bytes := x.text, failure := none }).run (.fresh .lenient)
      = (assemble { bytes := y.text, failure := none }).run (.fresh .lenient) ∧
    (Outcome.state ((assemble { bytes := x.text, failure := none }).run (.fresh .lenient))).line
      = 5 := by
  let x : EndedLines :=
    { ended := [(ascii "@x", .cr), ([0xC2], .lineSeparator), ([], .crlf), (ascii "(L)", .nextLine)]
      last := ascii "@L"
      unbroken := by decide +kernel
      apart := by decide }
  let y : EndedLines :=
    { ended := [(ascii "@x", .lf), ([0xC2], .paragraphSeparator), ([], .cr), (ascii "(L)", .crlf),
        (ascii "@L", .lf)]
      last := []
      unbroken := by decide +kernel
      apart := by decide }
  obtain ⟨a, ha, -⟩ := run_gather x.text
  obtain ⟨hrun, hline⟩ := line_ends_do_not_matter x y rfl (.fresh .lenient) (.fresh .lenient) rfl
  exact ⟨x, y, rfl, rfl, rfl, hrun, hline a ha⟩

end HackAssembly
