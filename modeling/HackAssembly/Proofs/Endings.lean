import HackAssembly.Proofs.Renumbering
import HackAssembly.Proofs.RoundTrip
import HackAssembly.Proofs.Soundness

/-!
# How runs end

A run ends in one of three ways.  It succeeds; or its source breaks off, which only the first pass
can notice; or, in strict mode, a problem is rejected.  That a symbol has no address is a fault that
never arises, although the third pass has to look for it: what it looks up has been bound by the
second one, in either mode, or the run would have ended there.

A lenient run over a source that can be read to its end succeeds (`run_assemble`), and one over a
source that breaks off gets as far as that (`run_gather_unreadable`).  A strict run stands beside
the lenient one, so it can fail for no other reason than the lenient one does, or with a diagnostic
of it (`fault_of_run_assemble`).

Nothing is written before a run has succeeded, and then all words at once
(`run_writes_all_or_nothing`).
-/

namespace HackAssembly

open Assembly Program

/-! ## Failures -/

theorem run_gatherLine_lenient {a : Assembler} (h : a.mode = .lenient) (line : Bytes) :
    ∃ b, (gatherLine line).run a = .ok () b ∧ b.mode = .lenient := by
  have hcount : ({ a with line := a.line + 1 } : Assembler).mode = .lenient := h
  rw [gatherLine, run_bind_of_ok (EStateM.run_modify _ a), gatherContent]
  split
  · exact ⟨_, rfl, h⟩
  · split
    · exact ⟨_, run_declareLabel hcount _ _, h⟩
    · exact ⟨_, run_addCommand hcount _, h⟩

theorem run_gatherText_lenient {a : Assembler} (h : a.mode = .lenient) (text : Bytes) :
    ∃ b, (gatherText text).run a = .ok () b ∧ b.mode = .lenient :=
  run_forM (I := fun _ b => b.mode = .lenient) (lines text)
    (fun _ line _ _ _ hb => run_gatherLine_lenient hb line) h

/-- A lenient run gets to the place where its source breaks off. -/
theorem run_gather_unreadable {source : Source} {cause : Bytes}
    (hcause : source.failure = some cause) {a : Assembler} (h : a.mode = .lenient) :
    ∃ b, (gather source).run a = .error (.unreadable (b.line + 1) cause) b := by
  obtain ⟨b, hb, -⟩ := run_forM (I := fun _ b => b.mode = .lenient) (chunks source.bytes).1
    (fun _ text _ _ _ hb => run_gatherText_lenient hb text) h
  refine ⟨b, ?_⟩
  rw [gather, run_bind_of_ok hb, hcause]
  rfl

theorem run_assemble_lenient (source : Source) {a₀ : Assembler} (h : a₀.mode = .lenient) :
    (source.failure = none ∧ ∃ a, (assemble source).run a₀ = .ok () a) ∨
      ∃ cause a, source.failure = some cause ∧
        (assemble source).run a₀ = .error (.unreadable (a.line + 1) cause) a := by
  obtain ⟨s, failure⟩ := source
  cases failure with
  | none =>
    obtain ⟨a, hrun, -⟩ := run_assemble s h
    exact Or.inl ⟨rfl, a, hrun⟩
  | some cause =>
    have hcause : ({ bytes := s, failure := some cause } : Source).failure = some cause := rfl
    have hmode : (Assembler.fresh a₀.mode).mode = .lenient := h
    obtain ⟨a, ha⟩ := run_gather_unreadable hcause hmode
    refine Or.inr ⟨cause, a, rfl, ?_⟩
    rw [run_assemble_eq]
    exact run_bind_of_error (run_bind_of_error (run_bind_of_error ha _) _) _

theorem unreadable_of_lenient {source : Source} {a₀ a : Assembler} {fault : Fault}
    (hmode : a₀.mode = .lenient) (h : (assemble source).run a₀ = .error fault a) :
    ∃ cause, source.failure = some cause ∧ fault = .unreadable (a.line + 1) cause := by
  rcases run_assemble_lenient source hmode with ⟨-, b, hrun⟩ | ⟨cause, b, hcause, hrun⟩
  · rw [hrun] at h
    cases h
  · rw [hrun] at h
    cases h
    exact ⟨cause, hcause, rfl⟩

/-- **Why a run fails**: its source breaks off, or strict mode rejects a problem. -/
theorem fault_of_run_assemble {source : Source} {a₀ a : Assembler} {fault : Fault}
    (h : (assemble source).run a₀ = .error fault a) :
    (∃ cause, source.failure = some cause ∧ fault = .unreadable (a.line + 1) cause) ∨
      a₀.mode = .strict ∧ ∃ d, fault = .rejected d := by
  cases hmode : a₀.mode with
  | lenient => exact Or.inl (unreadable_of_lenient hmode h)
  | strict =>
    have hlenient : (Assembler.fresh .lenient).mode = .lenient := rfl
    cases beside_assemble source hlenient hmode with
    | silent _ hsame =>
      -- the lenient run fails as well, in the same state but for its mode
      cases hrun : (assemble source).run (.fresh .lenient) with
      | ok _ b =>
        rw [hsame, hrun] at h
        cases h
      | error fault' b =>
        rw [hsame, hrun] at h
        cases h
        obtain ⟨cause, hcause, hfault⟩ := unreadable_of_lenient hlenient hrun
        exact Or.inl ⟨cause, hcause, hfault⟩
    | reported d _ b _ hstop _ =>
      rw [hstop] at h
      cases h
      exact Or.inr ⟨rfl, d, rfl⟩

/-! ## What is written -/

theorem assembleTo_of_error {source : Source} {a₀ a : Assembler} {fault : Fault}
    (h : (assemble source).run a₀ = .error fault a) (sink : Sink) :
    a₀.assembleTo source sink = (sink, .error fault a) := by
  have hrun : assemble source a₀ = .error fault a := h
  rw [Assembler.assembleTo, hrun]

theorem assembleTo_of_ok {source : Source} {a₀ a : Assembler}
    (h : (assemble source).run a₀ = .ok () a) (sink : Sink) :
    a₀.assembleTo source sink = ({ sink with attempts := unlines a.codes :: sink.attempts },
      match sink.refusal (unlines a.codes) with
      | none => .ok () a
      | some cause => .error (.unwritable cause) a) := by
  have hrun : assemble source a₀ = .ok () a := h
  have hprogram : a.program = unlines a.codes := rfl
  rw [Assembler.assembleTo, hrun]
  dsimp only [Sink.write]
  rw [hprogram]
  cases sink.refusal (unlines a.codes) <;> rfl

theorem length_unlines {ls : List Bytes} {n : Nat} (h : ∀ l ∈ ls, l.length = n) :
    (unlines ls).length = (n + 1) * ls.length := by
  induction ls with
  | nil => rfl
  | cons l ls ih =>
    have hfirst := h l List.mem_cons_self
    have hrest := ih fun m hm => h m (List.mem_cons_of_mem l hm)
    rw [unlines_cons, List.length_append, List.length_cons, hfirst, hrest, List.length_cons,
      Nat.mul_succ]
    omega

theorem length_instructions_ofText (s : Bytes) :
    (ofText s).instructions.length = ((lines s).map normalise).countP
      fun content => content ≠ [] ∧ ¬ ∃ name, Declares content name := by
  have hlabel : ∀ content, (declaredLabel? content).isNone
      = decide (¬ ∃ name, Declares content name) := by
    intro content
    rw [Bool.eq_iff_iff, Option.isNone_iff_eq_none, declaredLabel?_eq_none_iff, decide_eq_true_iff]
  calc (ofText s).instructions.length
      = ((ofText s).map Statement.content).countP fun content =>
          (declaredLabel? content).isNone := by
        rw [instructions, ← List.countP_eq_length_filter, List.countP_map]
        rfl
    _ = (((lines s).map normalise).filter (· ≠ [])).countP fun content =>
          (declaredLabel? content).isNone := by rw [ofText, content_ofLines]
    _ = _ := by
        rw [List.countP_filter]
        refine List.countP_congr fun content _ => ?_
        rw [hlabel]
        simp [and_comm]

/-- Each command of a successful run has a word of sixteen digits. -/
theorem isWord_of_mem_codes {source : Source} {a₀ a : Assembler}
    (h : (assemble source).run a₀ = .ok () a) : ∀ code ∈ a.codes, IsWord code := by
  obtain ⟨c, hc, hcommands⟩ := assembled_of_run_ok h
  have hcodes : a.codes = c.codes := by rw [Assembler.codes, hcommands, Assembler.codes]
  intro code hcode
  rw [hcodes, hc.codes_eq_digits] at hcode
  obtain ⟨i, -, rfl⟩ := List.mem_map.1 hcode
  exact isWord_encode i

/-- **All or nothing.**  A run fails only because its source breaks off or because strict mode
rejects a problem, so never for want of an address, and then nothing is handed to the sink.  A
lenient run over a source that can be read to its end does not fail.  When a run succeeds, there is
a command for each line that is neither blank nor a declaration, the words of all commands are
handed over at once, sixteen digits and a line feed each, and the answer of the sink decides how
assembling ends, in the state of the finished run. -/
theorem run_writes_all_or_nothing (source : Source) (sink : Sink) (a₀ : Assembler) :
    (∀ fault a, (assemble source).run a₀ = .error fault a →
      ((∃ cause, source.failure = some cause ∧ fault = .unreadable (a.line + 1) cause) ∨
        a₀.mode = .strict ∧ ∃ d, fault = .rejected d) ∧
      a₀.assembleTo source sink = (sink, .error fault a)) ∧
    (a₀.mode = .lenient → source.failure = none → ∃ a, (assemble source).run a₀ = .ok () a) ∧
    ∀ a, (assemble source).run a₀ = .ok () a →
      (a.commands.size = ((lines source.bytes).map normalise).countP
        fun content => content ≠ [] ∧ ¬ ∃ name, Declares content name) ∧
      (∀ code ∈ a.codes, IsWord code) ∧ (unlines a.codes).length = 17 * a.commands.size ∧
      a₀.assembleTo source sink = ({ sink with attempts := unlines a.codes :: sink.attempts },
        match sink.refusal (unlines a.codes) with
        | none => .ok () a
        | some cause => .error (.unwritable cause) a) := by
  refine ⟨?_, ?_, ?_⟩
  · intro fault a h
    exact ⟨fault_of_run_assemble h, assembleTo_of_error h sink⟩
  · intro hmode hfailure
    rcases run_assemble_lenient source hmode with ⟨-, hrun⟩ | ⟨cause, a, hcause, -⟩
    · exact hrun
    · rw [hfailure] at hcause
      cases hcause
  · intro a h
    obtain ⟨c, hc, hcommands⟩ := assembled_of_run_ok h
    have hwords := isWord_of_mem_codes h
    have hlength : a.codes.length = a.commands.size := by
      rw [Assembler.codes, List.length_map, Array.length_toList]
    refine ⟨?_, hwords, ?_, assembleTo_of_ok h sink⟩
    · rw [← length_instructions_ofText, hcommands, ← Array.length_toList, hc.commands,
        List.length_map]
    · rw [length_unlines fun code hcode => (hwords code hcode).1, hlength]

/-- Strict mode rejects the second line and nothing is handed over, as when the source breaks off
there.  Lenient mode hands over two words, and the sink refuses them. -/
theorem run_writes_all_or_nothing_refused :
    (∃ a, Assembler.assembleTo ⟨ascii "@i\n@1y\n", none⟩ {} (.fresh .strict)
      = ({}, .error (.rejected ⟨2, ascii "@1y", .operandForm⟩) a)) ∧
    (∃ a, Assembler.assembleTo ⟨ascii "@i\n", some (ascii "gone")⟩ {} (.fresh .lenient)
      = ({}, .error (.unreadable 2 (ascii "gone")) a)) ∧
    ∃ a, Assembler.assembleTo ⟨ascii "@i\n@1y\n", none⟩
        { refusal := fun _ => some (ascii "full") } (.fresh .lenient)
      = ({ refusal := fun _ => some (ascii "full")
           attempts := [ascii "0000000000010000\n1110000000000000\n"] },
        .error (.unwritable (ascii "full")) a) := by
  have hrejected : Outcome.fault? ((assemble ⟨ascii "@i\n@1y\n", none⟩).run (.fresh .strict))
      = some (.rejected ⟨2, ascii "@1y", .operandForm⟩) := by decide +kernel
  have hunreadable : Outcome.fault?
      ((assemble ⟨ascii "@i\n", some (ascii "gone")⟩).run (.fresh .lenient))
      = some (.unreadable 2 (ascii "gone")) := by decide +kernel
  have hwords : unlines (Outcome.state
      ((assemble ⟨ascii "@i\n@1y\n", none⟩).run (.fresh .lenient))).codes
      = ascii "0000000000010000\n1110000000000000\n" := by decide +kernel
  refine ⟨?_, ?_, ?_⟩
  · obtain ⟨a, ha⟩ := Outcome.fault?_eq_some.1 hrejected
    exact ⟨a, ((run_writes_all_or_nothing _ {} _).1 _ a ha).2⟩
  · obtain ⟨a, ha⟩ := Outcome.fault?_eq_some.1 hunreadable
    exact ⟨a, ((run_writes_all_or_nothing _ {} _).1 _ a ha).2⟩
  · obtain ⟨-, hsucceeds, hwritten⟩ := run_writes_all_or_nothing ⟨ascii "@i\n@1y\n", none⟩
      { refusal := fun _ => some (ascii "full") } (.fresh .lenient)
    obtain ⟨a, ha⟩ := hsucceeds rfl rfl
    have hwrite := (hwritten a ha).2.2.2
    rw [ha, Outcome.state] at hwords
    rw [hwords] at hwrite
    exact ⟨a, hwrite⟩

end HackAssembly
