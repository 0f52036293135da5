import HackAssembly.Proofs.Encoding

/-!
# Whole runs

A lenient run over a source that can be read to its end goes through the three passes one after the
other, and each pass leaves behind what the next one starts from: `Gathered`, `Resolved`, `Encoded`.
So the run always succeeds, and its commands, its table and its diagnostics are those of the program
that the source text means (`run_assemble`).
-/

namespace HackAssembly

open Assembly Program

/-- What the state holds after a whole lenient run over a program. -/
structure Assembled (p : Program) (a : Assembler) : Prop where
  mode : a.mode = .lenient
  nextVariable : a.nextVariable = firstVariable + (unknowns p.isKnown p.uses).card
  table : ∀ name, a.table.address? name
    = if p.isKnown name || p.uses.contains name then some (wrapped (p.address name)) else none
  commands : a.commands.toList = p.instructions.map p.command
  diagnostics : a.diagnostics.toList
    = p.gatherDiagnostics ++ p.resolveDiagnostics ++ p.encodeDiagnostics

theorem Assembled.codes {p : Program} {a : Assembler} (h : Assembled p a) :
    a.codes = p.instructions.map fun st => p.digits st.content := by
  rw [Assembler.codes, h.commands, List.map_map]
  refine List.map_congr_left fun st _ => ?_
  rw [digits_eq_render]
  rfl

/-! ## Pass by pass -/

theorem run_firstPass (s : Bytes) :
    ∃ a, (firstPass { bytes := s, failure := none }).run (.fresh .lenient) = .ok () a ∧
      a.line = (lines s).length ∧ Gathered (ofText s) a := by
  obtain ⟨a, ha, haline, h⟩ := run_gather s
  refine ⟨{ a with trace := a.trace.push (.gathered a.commands.size a.table.size) }, ?_, haline, ?_⟩
  · rw [firstPass, run_bind_of_ok ha, run_bind_of_ok (EStateM.run_get a)]
    rfl
  · -- what is noted between the passes changes nothing that they look at
    exact ⟨h.mode, h.nextInstruction, h.nextVariable, h.table, h.commands, h.diagnostics⟩

theorem run_secondPass (s : Bytes) :
    ∃ a, (secondPass { bytes := s, failure := none }).run (.fresh .lenient) = .ok () a ∧
      a.line = (lines s).length ∧ Resolved (ofText s) (ofText s).instructions a ∧
      a.commands.toList = (ofText s).instructions.map Statement.resolved := by
  obtain ⟨a, ha, haline, hgathered⟩ := run_firstPass s
  obtain ⟨b, hb, hbline, h, hcommands⟩ := run_resolve hgathered
  refine ⟨{ b with trace := b.trace.push (.resolved (b.nextVariable - firstVariable)) }, ?_,
    hbline.trans haline, ⟨h.mode, h.nextVariable, h.table, h.diagnostics⟩, hcommands⟩
  rw [secondPass, run_bind_of_ok ha, run_bind_of_ok hb, run_bind_of_ok (EStateM.run_get b)]
  rfl

/-- **A lenient run** over a source that can be read to its end succeeds, whatever the assembler has
done before. -/
theorem run_assemble (s : Bytes) {a₀ : Assembler} (h : a₀.mode = .lenient) :
    ∃ a, (assemble { bytes := s, failure := none }).run a₀ = .ok () a ∧
      a.line = (lines s).length ∧ Assembled (ofText s) a := by
  obtain ⟨b, hb, hbline, hresolved, hbcommands⟩ := run_secondPass s
  obtain ⟨c, hc, hcline, hencoded, hccommands⟩ := run_encode hresolved hbcommands
  refine ⟨{ c with trace := c.trace.push (.encoded c.diagnostics.size) }, ?_, ?_, ?_⟩
  · rw [run_assemble_eq, h, thirdPass, run_bind_of_ok hb, run_bind_of_ok hc,
      run_bind_of_ok (EStateM.run_get c)]
    rfl
  · exact hcline.trans hbline
  · exact ⟨hencoded.mode, hencoded.nextVariable,
      fun name => (hencoded.table name).trans (addressAfter?_instructions (ofText s) name),
      hccommands, hencoded.diagnostics⟩

/-! ## The whole run -/

/-- **Translation.**  A lenient run over any text succeeds, and its commands, its symbol table and
its words are those that the program of the text means. -/
theorem lenient_run_translates (s : Bytes) (a₀ : Assembler) (h : a₀.mode = .lenient) :
    ∃ a, (assemble { bytes := s, failure := none }).run a₀ = .ok () a ∧
      a.commands.toList = (ofText s).instructions.map (ofText s).command ∧
      a.codes = ((ofText s).instructions.map fun st => (ofText s).digits st.content) ∧
      ∀ name, a.table.address? name
        = if (ofText s).isKnown name || (ofText s).uses.contains name
          then some (wrapped ((ofText s).address name)) else none := by
  obtain ⟨a, hrun, -, ha⟩ := run_assemble s h
  exact ⟨a, hrun, ha.commands, ha.codes, ha.table⟩

/-- A predefined name that is declared twice as a label and used before its last declaration, with
two variables and a constant that is too large. -/
theorem lenient_run_translates_redeclared :
    (Assembler.fresh .lenient).mode = .lenient ∧ ∃ a,
      (assemble ⟨ascii "@x//one\r\n(SP)\n@SP\n@LCL\n@y\n@x\n(SP)\nD = M ; JMP\n@40000", none⟩).run
        (.fresh .lenient) = .ok () a ∧
      a.codes = [ascii "0000000000010000", ascii "0000000000000101", ascii "0000000000000001",
        ascii "0000000000010001", ascii "0000000000010000", ascii "1111110000010111",
        ascii "0001110001000000"] ∧
      a.table.address? (ascii "SP") = some 5 ∧ a.table.address? (ascii "y") = some 17 := by
  obtain ⟨a, hrun, -, hcodes, htable⟩ := lenient_run_translates
    (ascii "@x//one\r\n(SP)\n@SP\n@LCL\n@y\n@x\n(SP)\nD = M ; JMP\n@40000") (.fresh .lenient) rfl
  refine ⟨rfl, a, hrun, hcodes.trans ?_, (htable _).trans ?_, (htable _).trans ?_⟩
  · decide +kernel
  · decide +kernel
  · decide +kernel

end HackAssembly
