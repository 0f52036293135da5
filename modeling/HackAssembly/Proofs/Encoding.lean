import HackAssembly.Proofs.ConstantValue
import HackAssembly.Proofs.Resolution

/-!
# The third pass

When the second pass is done, the table gives every name that the program uses the address that it
stands for (`addressAfter?_instructions`).  So no symbol is missing in the third pass, and in
lenient mode each command gets the word of the machine instruction that its line means.  The pass
leaves the table as it is, which makes `Encoded` a matter of the diagnostics alone.
-/

namespace HackAssembly

open Assembly Program

/-- What the state holds when the third pass has met some instructions of a program. -/
structure Encoded (p : Program) (earlier : List Statement) (a : Assembler) : Prop where
  mode : a.mode = .lenient
  nextVariable : a.nextVariable = firstVariable + (unknowns p.isKnown p.uses).card
  table : ∀ name, a.table.address? name = p.addressAfter? p.instructions name
  diagnostics : a.diagnostics.toList = p.gatherDiagnostics ++ p.resolveDiagnostics
    ++ earlier.flatMap fun st => (encodeProblems st).map st.diagnostic

/-- The names that a program binds have the addresses that they stand for, cut to fifteen bits. -/
theorem Program.addressAfter?_instructions (p : Program) (name : Bytes) :
    p.addressAfter? p.instructions name
      = if p.isKnown name || p.uses.contains name then some (wrapped (p.address name))
        else none := by
  rw [addressAfter?, isKnown, knownAddress?, address, SymbolTable.contains_eq_isSome]
  cases hlabel : p.labelAddress? name with
  | some count => simp
  | none =>
    cases hpre : SymbolTable.predefined.address? name with
    | some address => simp [wrapped_predefined hpre]
    | none =>
      by_cases hused : name ∈ usedNames p.instructions
      · simp [uses, hused, variableOrdinal]
      · simp [uses, hused]

theorem isDigit_of_constant {content : Bytes} (h : Kind.ofContent content = .constant) :
    ∀ b ∈ content.drop 1, Byte.isDigit b = true := by
  unfold Kind.ofContent at h
  split at h
  · split at h
    · simp at h
    · split at h
      · next hnum =>
        intro b hb
        rw [Decimal.isNumeral, Bool.and_eq_true] at hnum
        exact List.all_eq_true.1 hnum.2 b hb
      · simp at h
  · simp at h

/-- **The word of an instruction** is that of the machine instruction which its line means, as soon
as the names that the program uses are bound to what they stand for. -/
theorem Assembly.run_encodeContent {p : Program} {a : Assembler} (hmode : a.mode = .lenient)
    (hbound : ∀ name ∈ p.uses, a.table.address? name = some (wrapped (p.address name)))
    {st : Statement} (hst : st ∈ p.instructions) :
    (encodeContent (Kind.ofContent st.content) st.line st.content).run a
      = .ok (p.instruction st.content).encode
        (a.diagnose ((encodeProblems st).map st.diagnostic)) := by
  rw [instruction, encodeProblems]
  cases hkind : Kind.ofContent st.content with
  | symbol =>
    have haddress := hbound (st.content.drop 1)
      (List.mem_filterMap.2 ⟨st, hst, usedName?_of_symbol hkind⟩)
    rw [Assembly.encodeContent, run_bind_of_ok (EStateM.run_get a), haddress, List.map_nil,
      Assembler.diagnose_nil, ← ofAddress_wrapped]
    rfl
  | constant =>
    rw [Assembly.encodeContent, Constant.read_eq (isDigit_of_constant hkind), ← wrapped]
    dsimp only
    rw [ofAddress_wrapped]
    by_cases hlarge : largestAddress < Decimal.value (st.content.drop 1)
    · rw [if_pos (decide_eq_true hlarge), if_pos hlarge,
        run_bind_of_ok (run_report hmode _ _ .constantTooLarge)]
      rfl
    · rw [if_neg (by simpa using hlarge), if_neg hlarge, List.map_nil, Assembler.diagnose_nil]
      rfl
  | computation => exact run_encodeContent_computation hmode st.line st.content

namespace Encoded

variable {p : Program} {earlier : List Statement} {a : Assembler}

theorem with_commands (h : Encoded p earlier a) (commands : Array Command) :
    Encoded p earlier { a with commands } :=
  ⟨h.mode, h.nextVariable, h.table, h.diagnostics⟩

theorem address?_of_mem_uses (h : Encoded p earlier a) :
    ∀ name ∈ p.uses, a.table.address? name = some (wrapped (p.address name)) := by
  intro name hname
  rw [h.table, addressAfter?_instructions,
    if_pos (Bool.or_eq_true_iff.2 (Or.inr (List.contains_iff_mem.2 hname)))]

/-- **One more instruction** of the third pass. -/
theorem encodeCommand (h : Encoded p earlier a) {st : Statement} (hst : st ∈ p.instructions)
    {old : Command} {before after : List Command}
    (hcommands : a.commands.toList = before ++ old :: after) :
    ∃ b, (encodeCommand before.length st.resolved).run a = .ok () b ∧ b.line = a.line ∧
      Encoded p (earlier ++ [st]) b ∧ b.commands.toList = before ++ p.command st :: after := by
  have hnext : Encoded p (earlier ++ [st]) (a.diagnose ((encodeProblems st).map st.diagnostic)) :=
    ⟨h.mode, h.nextVariable, h.table, by
      rw [Assembler.diagnostics_diagnose, h.diagnostics, List.flatMap_append, List.append_assoc]
      simp⟩
  have hword := run_encodeContent h.mode h.address?_of_mem_uses hst
  obtain ⟨commands, hb, hset⟩ := run_setCommand (a := a.diagnose _) hcommands (p.command st)
  exact ⟨_, (run_bind_of_ok hword _).trans hb, rfl, hnext.with_commands commands, hset⟩

end Encoded

/-- A program whose names are resolved is ready for encoding. -/
theorem Resolved.encoded {p : Program} {a : Assembler} (h : Resolved p p.instructions a) :
    Encoded p [] a where
  mode := h.mode
  nextVariable := h.nextVariable
  table := h.table
  diagnostics := by
    rw [List.flatMap_nil, List.append_nil]
    exact h.diagnostics

/-- The third pass up to some command. -/
theorem run_encode_visited {p : Program} {a : Assembler} (h : Resolved p p.instructions a)
    (hcommands : a.commands.toList = p.instructions.map Statement.resolved)
    {visited later : List Command} (hsplit : a.commands.toList = visited ++ later) :
    ∃ b, (visitAll encodeCommand visited).run a = .ok () b ∧ b.line = a.line ∧
      Encoded p (visited.map Command.statement) b ∧
      b.commands.toList = visited.map (fun command => p.command command.statement) ++ later := by
  have hstep : ∀ earlier command later, a.commands.toList = earlier ++ command :: later → ∀ c,
      c.line = a.line ∧ Encoded p (earlier.map Command.statement) c →
      c.commands.toList
        = earlier.map (fun command => p.command command.statement) ++ command :: later →
      ∃ d, (encodeCommand earlier.length command).run c = .ok () d ∧
        (d.line = a.line ∧ Encoded p ((earlier ++ [command]).map Command.statement) d) ∧
        d.commands.toList = earlier.map (fun command => p.command command.statement)
          ++ p.command command.statement :: later := by
    intro earlier command later hsplit c hc hccommands
    obtain ⟨st, hst, rfl⟩ : ∃ st ∈ p.instructions, st.resolved = command := by
      rw [← List.mem_map, ← hcommands, hsplit]
      simp
    obtain ⟨d, hd, hline, hnext, hset⟩ := hc.2.encodeCommand hst hccommands
    rw [List.length_map] at hd
    rw [List.map_append]
    exact ⟨d, hd, ⟨hline.trans hc.1, hnext⟩, hset⟩
  obtain ⟨b, hb, ⟨hline, henc⟩, hbcommands⟩ := run_visitAll hstep ⟨rfl, h.encoded⟩ hsplit
  exact ⟨b, hb, hline, henc, hbcommands⟩

theorem map_statement_resolved (l : List Statement) :
    (l.map Statement.resolved).map Command.statement = l := by
  rw [List.map_map]
  exact List.map_id l

/-- **The third pass** of a lenient run gives every instruction its word. -/
theorem run_encode {p : Program} {a : Assembler} (h : Resolved p p.instructions a)
    (hcommands : a.commands.toList = p.instructions.map Statement.resolved) :
    ∃ b, encode.run a = .ok () b ∧ b.line = a.line ∧ Encoded p p.instructions b ∧
      b.commands.toList = p.instructions.map p.command := by
  obtain ⟨b, hb, hline, henc, hbcommands⟩ :=
    run_encode_visited h hcommands (List.append_nil _).symm
  rw [hcommands, map_statement_resolved] at henc
  rw [List.append_nil, hcommands, List.map_map] at hbcommands
  exact ⟨b, hb, hline, henc, hbcommands⟩

end HackAssembly
