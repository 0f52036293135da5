import HackAssembly.Proofs.CanonicalProgram

/-!
# There and back

Assembling and disassembling undo each other.  The proof has two halves that meet at a list of
instructions: what a successful run writes is the words of some instructions
(`assembled_of_run_ok`), a file that can be disassembled holds the words of some instructions
(`disassembleAll_eq_ok`), and in both cases the canonical texts of these are assembled to the same
words again (`assembleTo_canonical`).

* `assembled_program_reassembles`: from a source, over its program, to its canonical source and back
  to the same program.
* `disassembled_file_reassembles`: from a binary file to its canonical source and back to the words
  of the file; so the canonical source determines the words.
-/

namespace HackAssembly

open Assembly Program

/-! ## Successful runs -/

theorem run_gather_ne_ok {source : Source} (h : source.failure ≠ none) (a b : Assembler) :
    (gather source).run a ≠ .ok () b := by
  obtain ⟨cause, hcause⟩ := Option.ne_none_iff_exists'.1 h
  intro hrun
  obtain ⟨_, c, -, hthrow⟩ := run_bind_eq_ok.1 hrun
  rw [hcause] at hthrow
  exact absurd hthrow (by rintro ⟨⟩)

theorem run_assemble_ne_ok {source : Source} (h : source.failure ≠ none) (a b : Assembler) :
    (assemble source).run a ≠ .ok () b := by
  rw [run_assemble_eq, thirdPass]
  intro hrun
  obtain ⟨_, c, hsecond, -⟩ := run_bind_eq_ok.1 hrun
  obtain ⟨_, d, hfirst, -⟩ := run_bind_eq_ok.1 hsecond
  obtain ⟨_, e, hgather, -⟩ := run_bind_eq_ok.1 hfirst
  exact run_gather_ne_ok h _ e hgather

/-- **Whatever succeeds**, in either mode, has read its source to the end and has the commands of
the program there. -/
theorem assembled_of_run_ok {source : Source} {a₀ a : Assembler}
    (h : (assemble source).run a₀ = .ok () a) :
    ∃ c, Assembled (ofText source.bytes) c ∧ a.commands = c.commands := by
  obtain ⟨s, failure⟩ := source
  obtain rfl : failure = none := by
    by_contra hfailure
    exact run_assemble_ne_ok hfailure a₀ a h
  cases hmode : a₀.mode with
  | lenient =>
    obtain ⟨c, hrun, -, hc⟩ := run_assemble s hmode
    rw [hrun] at h
    obtain rfl : c = a := by simpa using h
    exact ⟨c, hc, rfl⟩
  | strict =>
    obtain ⟨c, hc, -, rfl⟩ := assembled_of_strict_run_ok hmode h
    exact ⟨c, hc, rfl⟩

theorem assembleTo_eq_ok {source : Source} {sink sink' : Sink} {a₀ a : Assembler} :
    a₀.assembleTo source sink = (sink', .ok () a) ↔ (assemble source).run a₀ = .ok () a ∧
      sink.refusal a.program = none ∧
      sink' = { sink with attempts := a.program :: sink.attempts } := by
  have hrun : assemble source a₀ = (assemble source).run a₀ := rfl
  rw [Assembler.assembleTo, hrun]
  cases (assemble source).run a₀ with
  | error fault c => simp
  | ok _ c =>
    dsimp only [Sink.write]
    cases hrefusal : sink.refusal c.program with
    | some cause =>
      constructor
      · rintro ⟨⟩
      · rintro ⟨⟨⟩, hnone, -⟩
        rw [hrefusal] at hnone
        exact absurd hnone (by simp)
    | none =>
      constructor
      · rintro ⟨⟩
        exact ⟨rfl, hrefusal, rfl⟩
      · rintro ⟨⟨⟩, -, rfl⟩
        rfl

/-! ## The canonical source of some instructions -/

/-- **The canonical texts of some instructions are assembled to their words**, in strict mode and
without a problem. -/
theorem assembleTo_canonical (is : List Instruction) {b₀ : Assembler} (hb : b₀.mode = .strict)
    {sink : Sink} (hsink : sink.refusal (unlines (is.map Instruction.digits)) = none) :
    ∃ b, b₀.assembleTo { bytes := unlines (is.map Instruction.render), failure := none } sink
        = ({ sink with attempts := unlines (is.map Instruction.digits) :: sink.attempts },
          .ok () b) ∧
      b.diagnostics = #[] ∧ b.table = .predefined := by
  obtain ⟨b, hrun, hcodes, htable, hdiagnostics⟩ := run_assemble_canonical is hb
  have hprogram : b.program = unlines (is.map Instruction.digits) := by
    rw [← hcodes]
    rfl
  refine ⟨b, assembleTo_eq_ok.2 ⟨hrun, ?_, ?_⟩, hdiagnostics, htable⟩
  · rw [hprogram, hsink]
  · rw [hprogram]

theorem render_injective : Function.Injective Instruction.render := by
  intro i j h
  rw [← instruction_render [] i, h, instruction_render]

/-! ## Round trips -/

/-- **Assembling, disassembling and assembling again** writes the same program.  Whatever a run has
written, in either mode and however many problems it has met, can be disassembled with one text for
each command, and these texts are assembled in strict mode, without a problem or a new symbol, to
the same bytes. -/
theorem assembled_program_reassembles (source : Source) (sink sink' : Sink) (a₀ a : Assembler)
    (h : a₀.assembleTo source sink = (sink', .ok () a)) :
    ∃ written texts, sink'.attempts = written :: sink.attempts ∧
      disassembleAll { bytes := written, failure := none } = .ok texts ∧
      texts.length = a.commands.size ∧
      ∀ b₀ : Assembler, b₀.mode = .strict → ∀ sink₁ : Sink, sink₁.refusal written = none →
        ∃ b, b₀.assembleTo { bytes := unlines texts, failure := none } sink₁
            = ({ sink₁ with attempts := written :: sink₁.attempts }, .ok () b) ∧
          b.diagnostics = #[] ∧ b.table = .predefined := by
  obtain ⟨hrun, -, rfl⟩ := assembleTo_eq_ok.1 h
  obtain ⟨c, hc, hcommands⟩ := assembled_of_run_ok hrun
  let is := (ofText source.bytes).instructions.map
    fun st => (ofText source.bytes).instruction st.content
  have hcodes : a.codes = is.map Instruction.digits := by
    rw [← hc.codes_eq_digits, Assembler.codes, hcommands]
    rfl
  have hprogram : a.program = unlines (is.map Instruction.digits) := by
    rw [← hcodes]
    rfl
  have hsize : (is.map Instruction.render).length = a.commands.size := by
    have hlength := congrArg List.length hcodes
    rw [Assembler.codes, List.length_map, List.length_map, Array.length_toList] at hlength
    rw [List.length_map, hlength]
  refine ⟨a.program, is.map Instruction.render, rfl, ?_, hsize, ?_⟩
  · rw [hprogram, disassembleAll_unlines_digits]
  · intro b₀ hb sink₁ hsink
    rw [hprogram] at hsink ⊢
    exact assembleTo_canonical is hb hsink

/-- A constant that is too large, fields and lines that cannot be read, and a variable. -/
theorem assembled_program_reassembles_defaulted : ∃ sink a b,
    (Assembler.fresh .lenient).assembleTo ⟨ascii "@40000\nX=Q;JXX\n(L\n@1x\n@v;\n@v", none⟩ {}
      = (sink, .ok () a) ∧ a.diagnostics.size = 11 ∧
    (Assembler.fresh .strict).assembleTo
        ⟨ascii "@7232\nD&A\nD&A\nD&A\nD&A\n@16\n", none⟩ {} = (sink, .ok () b) ∧
      b.diagnostics = #[] ∧ b.table = .predefined := by
  obtain ⟨a, hrun, -, ha⟩ := run_assemble (ascii "@40000\nX=Q;JXX\n(L\n@1x\n@v;\n@v")
    (show (Assembler.fresh .lenient).mode = .lenient from rfl)
  have h := assembleTo_eq_ok.2 ⟨hrun, (rfl : ({} : Sink).refusal a.program = none), rfl⟩
  obtain ⟨written, texts, hwritten, htexts, -, hback⟩ :=
    assembled_program_reassembles _ {} _ _ a h
  have hprogram : a.program = unlines a.codes := rfl
  obtain rfl : a.program = written := (List.cons.inj hwritten).1
  rw [hprogram, ha.codes] at htexts
  obtain rfl := (Except.ok.inj (htexts.symm.trans (by decide +kernel)) :
    texts = [ascii "@7232", ascii "D&A", ascii "D&A", ascii "D&A", ascii "D&A", ascii "@16"])
  obtain ⟨b, hb, hdiagnostics, htable⟩ := hback (.fresh .strict) rfl {} rfl
  refine ⟨_, a, b, h, ?_, hb, hdiagnostics, htable⟩
  rw [← Array.length_toList, ha.diagnostics]
  decide +kernel

/-- **Disassembling and assembling again** writes the words of the file, a line for each, in order.
So two files with the same texts have the same words. -/
theorem disassembled_file_reassembles (source : Source) (texts : List Bytes)
    (h : disassembleAll source = .ok texts) :
    (∀ b₀ : Assembler, b₀.mode = .strict →
      ∀ sink : Sink, sink.refusal (unlines (wordsIn source.bytes)) = none →
        ∃ b, b₀.assembleTo { bytes := unlines texts, failure := none } sink
            = ({ sink with attempts := unlines (wordsIn source.bytes) :: sink.attempts },
              .ok () b)) ∧
      ∀ other : Source, disassembleAll other = .ok texts →
        wordsIn other.bytes = wordsIn source.bytes := by
  obtain ⟨-, -, is, hwords, rfl⟩ := disassembleAll_eq_ok.1 h
  rw [hwords]
  constructor
  · intro b₀ hb sink hsink
    obtain ⟨b, hrun, -⟩ := assembleTo_canonical is hb hsink
    exact ⟨b, hrun⟩
  · intro other hother
    obtain ⟨-, -, js, hjs, htexts⟩ := disassembleAll_eq_ok.1 hother
    rw [hjs, List.map_injective_iff.2 render_injective htexts]

/-- Words with white space of several kinds around them, blank lines, both line ends, and none after
the last word. -/
theorem disassembled_file_reassembles_layout :
    disassembleAll ⟨ascii "\r\n 0000000000000111\t\r\n\n" ++ [0xC2, 0xA0]
        ++ ascii "1110001100000111", none⟩ = .ok [ascii "@7", ascii "D;JMP"] ∧
      ∃ b, (Assembler.fresh .strict).assembleTo ⟨ascii "@7\nD;JMP\n", none⟩ {}
        = ({ attempts := [ascii "0000000000000111\n1110001100000111\n"] }, .ok () b) := by
  have h : disassembleAll ⟨ascii "\r\n 0000000000000111\t\r\n\n" ++ [0xC2, 0xA0]
      ++ ascii "1110001100000111", none⟩ = .ok [ascii "@7", ascii "D;JMP"] := by decide +kernel
  have hwords : unlines (wordsIn (ascii "\r\n 0000000000000111\t\r\n\n" ++ [0xC2, 0xA0]
      ++ ascii "1110001100000111")) = ascii "0000000000000111\n1110001100000111\n" := by
    decide +kernel
  obtain ⟨b, hb⟩ := (disassembled_file_reassembles _ _ h).1 (.fresh .strict) rfl {} rfl
  rw [hwords] at hb
  exact ⟨h, b, hb⟩

end HackAssembly
