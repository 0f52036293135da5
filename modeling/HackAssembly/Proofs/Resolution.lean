import HackAssembly.Proofs.Gathering

/-!
# The second pass

In lenient mode the second pass keeps `Resolved`.  It starts from a table that binds the known
names, labels and predefined ones, and after some instructions it binds in addition the variables
that they use.  A variable is bound where it is first used, to 16 and the number of variables bound
so far.  Later uses change neither that number for it nor the table, which is why the invariant can
speak of the first use of every variable at once.

The kinds of the instructions depend on nothing else, so they are the ones of the lines.
-/

namespace HackAssembly

open Assembly Program

def Command.statement (command : Command) : Statement :=
  { line := command.line, content := command.content }

def Command.withKind (command : Command) : Command :=
  { command with kind := Kind.ofContent command.content }

def Statement.resolved (st : Statement) : Command :=
  { kind := Kind.ofContent st.content, line := st.line, content := st.content }

/-- What a name is bound to when the second pass has met some instructions of a program. -/
def Program.addressAfter? (p : Program) (earlier : List Statement) (name : Bytes) :
    Option Address :=
  (p.knownAddress? name).or
    (if name ∈ usedNames earlier
      then some (wrapped (firstVariable + ordinal p.isKnown (usedNames earlier) name)) else none)

/-- What the state holds when the second pass has met some instructions of a program. -/
structure Resolved (p : Program) (earlier : List Statement) (a : Assembler) : Prop where
  mode : a.mode = .lenient
  nextVariable : a.nextVariable
    = firstVariable + (unknowns p.isKnown (usedNames earlier)).card
  table : ∀ name, a.table.address? name = p.addressAfter? earlier name
  diagnostics : a.diagnostics.toList = p.gatherDiagnostics
    ++ along (fun earlier st => (resolveProblems p.isKnown earlier st).map st.diagnostic) earlier

namespace Assembly

variable {a : Assembler}

theorem run_allocate_of_contains {name : Bytes} (h : a.table.contains name = true) (line : Int)
    (content : Bytes) : (allocate line content name).run a = .ok () a := by
  rw [allocate, run_bind_of_ok (EStateM.run_get a), if_pos h]
  rfl

theorem run_allocate (hmode : a.mode = .lenient) {name : Bytes}
    (h : a.table.contains name = false) (line : Int) (content : Bytes) :
    (allocate line content name).run a = .ok ()
      { a.diagnose (if largestAddress < a.nextVariable
          then [{ line, content, problem := .addressTooLarge }] else []) with
        table := a.table.insert name (wrapped a.nextVariable)
        trace := a.trace.push (.variableAllocated name a.nextVariable)
        nextVariable := a.nextVariable + 1 } := by
  have hcheck := run_checkAddress hmode line content a.nextVariable
  rw [toUInt16_emod] at hcheck
  rw [allocate, run_bind_of_ok (EStateM.run_get a), if_neg (by simp [h]),
    run_bind_of_ok (EStateM.run_get a)]
  dsimp only
  rw [run_bind_of_ok hcheck]
  by_cases hlarge : largestAddress < a.nextVariable
  · rw [if_pos hlarge, if_pos (by exact_mod_cast hlarge)]
    rfl
  · rw [if_neg hlarge, if_neg (by exact_mod_cast hlarge)]
    rfl

end Assembly

namespace Resolved

variable {p : Program} {earlier : List Statement} {a : Assembler}

/-- The invariant does not speak of the commands. -/
theorem with_commands (h : Resolved p earlier a) (commands : Array Command) :
    Resolved p earlier { a with commands } :=
  ⟨h.mode, h.nextVariable, h.table, h.diagnostics⟩

theorem contains_eq (h : Resolved p earlier a) (name : Bytes) :
    a.table.contains name = (p.isKnown name || (usedNames earlier).contains name) := by
  rw [SymbolTable.contains_eq_isSome, h.table, addressAfter?, Option.isSome_or,
    ← isKnown_eq_isSome]
  by_cases hname : name ∈ usedNames earlier <;> simp [hname]

/-- A name that is not new stays as it is. -/
theorem addressAfter?_concat_of_old {st : Statement} {name : Bytes}
    (hname : usedName? st.content = some name)
    (hold : (p.isKnown name || (usedNames earlier).contains name) = true) (other : Bytes) :
    p.addressAfter? (earlier ++ [st]) other = p.addressAfter? earlier other := by
  rw [addressAfter?, addressAfter?, usedNames_concat, hname, Option.toList_some]
  by_cases hmem : other ∈ usedNames earlier
  · rw [if_pos hmem, if_pos (by simp [hmem]), ordinal_append_of_mem hmem]
  · rw [if_neg hmem]
    by_cases hother : other = name
    · -- it is not used before, so it must be known
      have hknown : (p.knownAddress? other).isSome = true := by
        rw [← isKnown_eq_isSome]
        simpa [hother, hother ▸ hmem] using hold
      obtain ⟨address, haddress⟩ := Option.isSome_iff_exists.1 hknown
      rw [haddress]
      rfl
    · rw [if_neg (by simp [hmem, hother])]

/-- A new name gets the next free address. -/
theorem addressAfter?_concat_of_new {st : Statement} {name : Bytes}
    (hname : usedName? st.content = some name)
    (hnew : (p.isKnown name || (usedNames earlier).contains name) = false) (other : Bytes) :
    p.addressAfter? (earlier ++ [st]) other
      = if name = other
          then some (wrapped (firstVariable + (unknowns p.isKnown (usedNames earlier)).card))
        else p.addressAfter? earlier other := by
  obtain ⟨hknown, hused⟩ : p.isKnown name = false ∧ name ∉ usedNames earlier := by
    simpa using hnew
  rw [addressAfter?, addressAfter?, usedNames_concat, hname, Option.toList_some]
  by_cases hother : name = other
  · subst hother
    rw [isKnown_eq_isSome, Option.isSome_eq_false_iff, Option.isNone_iff_eq_none] at hknown
    rw [if_pos (by simp), if_pos rfl, hknown, ordinal_concat_self hused]
    rfl
  · rw [if_neg hother]
    by_cases hmem : other ∈ usedNames earlier
    · rw [if_pos hmem, if_pos (by simp [hmem]), ordinal_append_of_mem hmem]
    · rw [if_neg hmem, if_neg (by simp [hmem, Ne.symm hother])]

/-- **A use of a name** binds it, when it is new. -/
theorem allocate (h : Resolved p earlier a) (st : Statement) {name : Bytes}
    (hname : usedName? st.content = some name) :
    ∃ b, (allocate st.line st.content name).run a = .ok () b ∧ b.line = a.line ∧
      b.commands = a.commands ∧ Resolved p (earlier ++ [st]) b := by
  have hcontains := h.contains_eq name
  have hnames : usedNames (earlier ++ [st]) = usedNames earlier ++ [name] := by
    rw [usedNames_concat, hname, Option.toList_some]
  cases hold : p.isKnown name || (usedNames earlier).contains name with
  | true =>
    refine ⟨a, run_allocate_of_contains (by rw [hcontains, hold]) _ _, rfl, rfl, h.mode, ?_, ?_, ?_⟩
    · rw [hnames, card_unknowns_concat, if_pos hold, h.nextVariable, Nat.add_zero]
    · intro other
      rw [addressAfter?_concat_of_old hname hold, h.table]
    · rw [along_concat, resolveProblems, hname]
      simp only [hold, if_true, List.map_nil, List.append_nil]
      exact h.diagnostics
  | false =>
    refine ⟨_, run_allocate h.mode (by rw [hcontains, hold]) _ _, rfl, rfl, h.mode, ?_, ?_, ?_⟩
    · rw [hnames, card_unknowns_concat, hold, h.nextVariable]
      rfl
    · intro other
      rw [addressAfter?_concat_of_new hname hold, SymbolTable.address?_insert, h.nextVariable,
        h.table]
    · rw [along_concat, resolveProblems, hname, ← List.append_assoc, ← h.diagnostics,
        h.nextVariable]
      simp only [hold]
      by_cases hlarge : largestAddress
          < firstVariable + (unknowns p.isKnown (usedNames earlier)).card
      · simp [hlarge, Statement.diagnostic]
      · simp [hlarge]

/-- Anything else leaves the names alone. -/
theorem skip (h : Resolved p earlier a) (st : Statement) (hname : usedName? st.content = none) :
    Resolved p (earlier ++ [st])
      (a.diagnose ((resolveProblems p.isKnown earlier st).map st.diagnostic)) := by
  have hnames : usedNames (earlier ++ [st]) = usedNames earlier := by
    rw [usedNames_concat, hname, Option.toList_none, List.append_nil]
  refine ⟨h.mode, ?_, ?_, ?_⟩
  · rw [hnames]
    exact h.nextVariable
  · intro other
    rw [addressAfter?, hnames]
    exact h.table other
  · rw [along_concat, Assembler.diagnostics_diagnose, h.diagnostics, List.append_assoc]

/-- **One more instruction** of the second pass. -/
theorem resolveCommand (h : Resolved p earlier a) (command : Command) {old : Command}
    {before after : List Command} (hcommands : a.commands.toList = before ++ old :: after) :
    ∃ b, (resolveCommand before.length command).run a = .ok () b ∧ b.line = a.line ∧
      Resolved p (earlier ++ [command.statement]) b ∧
      b.commands.toList = before ++ command.withKind :: after := by
  rw [Assembly.resolveCommand, Command.withKind]
  have hskip : Kind.ofContent command.content ≠ .symbol → _ :=
    fun hne => h.skip command.statement (usedName?_of_ne_symbol hne)
  cases hkind : Kind.ofContent command.content with
  | symbol =>
    obtain ⟨commands, hb, hset⟩ := run_setCommand hcommands
      { command with kind := .symbol }
    obtain ⟨c, hc, hcline, hccommands, hnext⟩ :=
      (h.with_commands commands).allocate command.statement (usedName?_of_symbol hkind)
    exact ⟨c, (run_bind_of_ok hb _).trans hc, hcline, hnext, by rw [hccommands, hset]⟩
  | constant =>
    have hnext := hskip (by simp [hkind])
    have hproblems : resolveProblems p.isKnown earlier command.statement = [] := by
      simp [resolveProblems, Command.statement, usedName?_of_ne_symbol, hkind]
    rw [hproblems, List.map_nil, Assembler.diagnose_nil] at hnext
    obtain ⟨commands, hb, hset⟩ := run_setCommand hcommands
      { command with kind := .constant }
    exact ⟨_, hb, rfl, hnext.with_commands commands, hset⟩
  | computation =>
    have hnext := hskip (by simp [hkind])
    have hproblems : resolveProblems p.isKnown earlier command.statement
        = if opensAddress command.content then [.operandForm] else [] := by
      simp [resolveProblems, Command.statement, usedName?_of_ne_symbol, hkind]
    rw [hproblems] at hnext
    dsimp only
    split
    · next hopens =>
      rw [if_pos hopens] at hnext
      have hreport := run_report h.mode command.line command.content .operandForm
      obtain ⟨commands, hb, hset⟩ := run_setCommand (a := a.diagnose _) hcommands
        { command with kind := .computation }
      exact ⟨_, (run_bind_of_ok hreport _).trans hb, rfl, hnext.with_commands commands, hset⟩
    · next hopens =>
      rw [if_neg hopens, List.map_nil, Assembler.diagnose_nil] at hnext
      obtain ⟨commands, hb, hset⟩ := run_setCommand hcommands
        { command with kind := .computation }
      exact ⟨_, hb, rfl, hnext.with_commands commands, hset⟩

end Resolved

/-- The table of a gathered program binds no variable. -/
theorem Gathered.resolved {p : Program} {a : Assembler} (h : Gathered p a) : Resolved p [] a where
  mode := h.mode
  nextVariable := h.nextVariable
  table := fun name => by rw [h.table, addressAfter?]; simp [usedNames]
  diagnostics := by rw [h.diagnostics]; simp [along]

/-- The second pass up to some command. -/
theorem run_resolve_visited {p : Program} {a : Assembler} (h : Gathered p a)
    {visited later : List Command} (hsplit : a.commands.toList = visited ++ later) :
    ∃ b, (visitAll resolveCommand visited).run a = .ok () b ∧ b.line = a.line ∧
      Resolved p (visited.map Command.statement) b ∧
      b.commands.toList = visited.map Command.withKind ++ later := by
  have hstep : ∀ earlier command later, a.commands.toList = earlier ++ command :: later → ∀ c,
      c.line = a.line ∧ Resolved p (earlier.map Command.statement) c →
      c.commands.toList = earlier.map Command.withKind ++ command :: later →
      ∃ d, (resolveCommand earlier.length command).run c = .ok () d ∧
        (d.line = a.line ∧ Resolved p ((earlier ++ [command]).map Command.statement) d) ∧
        d.commands.toList = earlier.map Command.withKind ++ command.withKind :: later := by
    intro earlier command later _ c hc hcommands
    obtain ⟨d, hd, hline, hnext, hset⟩ := hc.2.resolveCommand command hcommands
    rw [List.length_map] at hd
    rw [List.map_append]
    exact ⟨d, hd, ⟨hline.trans hc.1, hnext⟩, hset⟩
  obtain ⟨b, hb, ⟨hline, hres⟩, hcommands⟩ := run_visitAll hstep ⟨rfl, h.resolved⟩ hsplit
  exact ⟨b, hb, hline, hres, hcommands⟩

theorem map_statement_gathered (l : List Statement) :
    (l.map Statement.gathered).map Command.statement = l := by
  rw [List.map_map]
  exact List.map_id l

/-- **The second pass** of a lenient run binds the variables of the program. -/
theorem run_resolve {p : Program} {a : Assembler} (h : Gathered p a) :
    ∃ b, resolve.run a = .ok () b ∧ b.line = a.line ∧ Resolved p p.instructions b ∧
      b.commands.toList = p.instructions.map Statement.resolved := by
  obtain ⟨b, hb, hline, hres, hcommands⟩ := run_resolve_visited h (List.append_nil _).symm
  rw [h.commands, map_statement_gathered] at hres
  rw [List.append_nil, h.commands, List.map_map] at hcommands
  exact ⟨b, hb, hline, hres, hcommands⟩

end HackAssembly
