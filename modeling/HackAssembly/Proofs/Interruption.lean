import HackAssembly.Proofs.Appending
import HackAssembly.Proofs.Layout
import HackAssembly.Proofs.Soundness

/-!
# Where a strict run stops

A strict run that is rejected leaves its state behind, and the state tells how far it came.  This
module says what it holds, pass by pass, beside the state `l` in which the lenient run over the same
text ends.

A pass is a loop, over lines or over commands, so a rejected one has gone through some elements and
is rejected at the next (`exists_of_loop_error`).  It has met no problem in the elements before, and
so it is there in the same state as the lenient run, for which the invariants `Gathered`, `Resolved`
and `Encoded` are known up to any element.  What is left is the step that was rejected: it has
counted the line, or decided the kind, and done nothing else.

The lenient run goes on from there.  It only adds to what the state held, which is why the parts can
be read off its last state: the commands of the lines before, and the bindings of the names met
before.
-/

namespace HackAssembly

open Assembly Program

def Command.untyped (command : Command) : Command :=
  { line := command.line, content := command.content }

def Command.unencoded (command : Command) : Command := { command with code := none }

/-- What a run holds that was rejected in the first pass: the part of the program in the lines
before the last one that it counted. -/
structure StoppedGathering (p : Program) (l b : Assembler) (d : Diagnostic) : Prop where
  line : d.line = b.line
  commands : b.commands.toList
    = (l.commands.toList.filter fun command => command.line < b.line).map Command.untyped
  table : ∀ name, b.table.address? name
    = knownAddress? (p.filter fun st => st.line < b.line) name

/-- What a run holds that was rejected in the second pass at some command of the lenient run: the
kinds up to that command, and the names that are known or used before it. -/
structure StoppedResolving (p : Program) (l b : Assembler) (d : Diagnostic)
    (before : List Command) (command : Command) (after : List Command) : Prop where
  split : l.commands.toList = before ++ command :: after
  line : d.line = command.line
  content : d.content = command.content
  kind : (d.problem = .addressTooLarge ∧ command.kind = .symbol) ∨
    (d.problem = .operandForm ∧ command.kind = .computation)
  commands : b.commands.toList
    = before.map Command.unencoded ++ command.unencoded :: after.map Command.untyped
  table : ∀ name, b.table.address? name
    = if p.isKnown name || (usedNames (before.map Command.statement)).contains name
      then l.table.address? name else none

/-- What a run holds that was rejected in the third pass at some command of the lenient run: all but
the words from that command on. -/
structure StoppedEncoding (l b : Assembler) (d : Diagnostic)
    (before : List Command) (command : Command) (after : List Command) : Prop where
  split : l.commands.toList = before ++ command :: after
  line : d.line = command.line
  content : d.content = command.content
  commands : b.commands.toList = before ++ (command :: after).map Command.unencoded
  table : b.table = l.table
  lines : b.line = l.line
  nextInstruction : b.nextInstruction = l.nextInstruction
  nextVariable : b.nextVariable = l.nextVariable

/-! ## The step that is rejected -/

section Steps

variable {a b : Assembler} {fault : Fault}

theorem gatherLine_eq_error {line : Bytes} (h : (gatherLine line).run a = .error fault b) :
    b = { a with line := a.line + 1 } := by
  rw [gatherLine, run_bind_of_ok (EStateM.run_modify _ a)] at h
  obtain ⟨c, hrun, -⟩ | ⟨d, -, hrun⟩ :=
    gatherContent_outcome { a with line := a.line + 1 } (normalise line)
  · rw [hrun] at h
    cases h
  · rw [hrun] at h
    cases h
    rfl

/-- The kind is decided before a variable is allocated, but after an operand is reported; there the
command has no kind yet, which is the kind of a computation. -/
theorem resolveCommand_eq_error {before after : List Command} {command : Command}
    (hcommands : a.commands.toList = before ++ command :: after)
    (hkind : command.kind = .computation)
    (h : (resolveCommand before.length command).run a = .error fault b) :
    b = { a with commands := b.commands } ∧
      b.commands.toList = before ++ command.withKind :: after := by
  rw [resolveCommand] at h
  rw [Command.withKind]
  cases hcontent : Kind.ofContent command.content with
  | symbol =>
    rw [hcontent] at h
    obtain ⟨commands, hc, hset⟩ := run_setCommand hcommands { command with kind := .symbol }
    rw [run_bind_of_ok hc] at h
    rcases allocate_outcome { a with commands } command.line command.content
      (command.content.drop 1) with ⟨_, hrun⟩ | ⟨_, _, _, hrun⟩ | ⟨_, _, hrun⟩
    · rw [hrun] at h
      cases h
    · rw [hrun] at h
      cases h
    · rw [hrun] at h
      cases h
      exact ⟨rfl, hset⟩
  | constant =>
    rw [hcontent] at h
    cases h
  | computation =>
    have hsame : { command with kind := .computation } = command := by rw [← hkind]
    rw [hcontent] at h
    dsimp only at h
    split at h
    · obtain ⟨_, -, hrun⟩ | ⟨_, -, hrun⟩ :=
        (report_outcome a command.line command.content .operandForm).run_bind fun _ =>
          setCommand before.length { command with kind := .computation }
      · rw [hrun] at h
        cases h
      · rw [hrun] at h
        cases h
        exact ⟨rfl, by rw [hsame, hcommands]⟩
    · cases h

theorem encodeCommand_eq_error {index : Nat} {command : Command}
    (h : (encodeCommand index command).run a = .error fault b) : b = a := by
  rw [encodeCommand] at h
  rcases encodeContent_outcome a command.kind command.line command.content with
    ⟨_, houtcome⟩ | hrun
  · rcases houtcome.run_bind fun word => setCommand index { command with code := some word } with
      ⟨_, _, hrun⟩ | ⟨_, _, hrun⟩
    · rw [hrun] at h
      cases h
    · rw [hrun] at h
      cases h
      rfl
  · rw [run_bind_of_error hrun] at h
    cases h
    rfl

end Steps

/-! ## The lenient run goes on -/

/-- The statements before a line are those of the lines before it. -/
theorem filter_line_ofLines_append (ls ms : List Bytes) :
    (ofLines (ls ++ ms)).filter (fun st => st.line < ls.length + 1) = ofLines ls := by
  have hbefore : ∀ st ∈ ofLines ls, decide (st.line < ls.length + 1) = true := by
    intro st hst
    have hline := line_of_mem_ofLines st hst
    rw [decide_eq_true_eq]
    omega
  have hbehind : ∀ st ∈ (ofLines ms).map (Statement.renumber (ls.length + ·)),
      ¬ decide (st.line < ls.length + 1) = true := by
    intro st hst
    obtain ⟨su, hsu, rfl⟩ := List.mem_map.1 hst
    have hline := line_of_mem_ofLines su hsu
    rw [decide_eq_true_eq, Statement.renumber]
    dsimp only
    omega
  rw [ofLines_append, List.filter_append, List.filter_eq_self.2 hbefore,
    List.filter_eq_nil_iff.2 hbehind, List.append_nil]

theorem instructions_filter (p : Program) (q : Statement → Bool) :
    instructions (p.filter q) = p.instructions.filter q :=
  List.filter_comm _ q p

/-- A name that is bound halfway through the second pass keeps its address. -/
theorem addressAfter?_eq_ite {p : Program} {earlier later : List Statement}
    (hsplit : p.instructions = earlier ++ later) (name : Bytes) :
    p.addressAfter? earlier name
      = if p.isKnown name || (usedNames earlier).contains name
        then p.addressAfter? p.instructions name else none := by
  have huses : usedNames p.instructions = usedNames earlier ++ usedNames later := by
    rw [hsplit, usedNames, List.filterMap_append]
    rfl
  rw [addressAfter?, addressAfter?, isKnown_eq_isSome, huses]
  cases p.knownAddress? name with
  | some address => simp
  | none =>
    by_cases hused : name ∈ usedNames earlier
    · simp [hused, ordinal_append_of_mem hused]
    · simp [hused]

/-! ## Pass by pass -/

section Passes

variable {p : Program} {l a b : Assembler} {fault : Fault}

/-- **The first pass**, rejected at some line. -/
theorem stopped_gathering {s : Bytes} (hl : Assembled (ofText s) l)
    (h : (gather { bytes := s, failure := none }).run (.fresh .strict) = .error fault b) :
    ∃ d, fault = .rejected d ∧ StoppedGathering (ofText s) l b d := by
  rw [gather_eq_forM] at h
  obtain ⟨earlier, x, later, c, hlines, hearlier, hx⟩ := exists_of_forM_error h
  -- up to this line the strict run is the lenient one
  obtain ⟨a, ha, haline, hgathered⟩ := run_gather_lines earlier
  obtain ⟨rfl, -⟩ :=
    (Lockstep.forM Lockstep.gatherLine earlier).eq_strictly_of_ok (a := .fresh .lenient) rfl ha
      hearlier
  obtain ⟨a', ha', -, hnext⟩ := hgathered.gatherLine haline x
  have hfilter : (ofText s).filter (fun st => st.line < earlier.length + 1) = ofLines earlier := by
    rw [ofText, hlines]
    exact filter_line_ofLines_append earlier (x :: later)
  obtain ⟨ds, hds, hdsline⟩ : ∃ ds, a'.diagnostics.toList = a.diagnostics.toList ++ ds ∧
      ∀ d ∈ ds, d.line = ((earlier.length + 1 : Nat) : Int) := by
    rw [hnext.diagnostics, hgathered.diagnostics, gatherDiagnostics, ofLines_concat]
    split
    · exact ⟨[], by rw [List.append_nil, List.append_nil]; rfl, by simp⟩
    · rw [along_concat]
      refine ⟨_, rfl, fun d hd => ?_⟩
      obtain ⟨problem, -, rfl⟩ := List.mem_map.1 hd
      rfl
  obtain ⟨d, hd, hfault⟩ :=
    (Lockstep.gatherLine x).exists_rejected_of_error hgathered.mode ha' hds hx
  have hb := gatherLine_eq_error hx
  have hbline : b.line = earlier.length + 1 := by
    rw [hb, ← haline]
    rfl
  refine ⟨d, hfault, ?_, ?_, fun name => ?_⟩
  · rw [hdsline d hd, hbline]
  · have hcommands : b.commands = a.commands := by
      rw [hb]
      rfl
    rw [hcommands, hgathered.commands, ← hfilter, instructions_filter, hbline, hl.commands,
      List.filter_map, List.map_map]
    rfl
  · rw [hbline, hfilter, ← hgathered.table, hb]
    rfl

/-- What the second pass can reject, and the kind of the line that it rejects. -/
theorem kind_of_mem_resolveProblems {known : Bytes → Bool} {earlier : List Statement}
    {st : Statement} {problem : Problem} (h : problem ∈ resolveProblems known earlier st) :
    (problem = .addressTooLarge ∧ Kind.ofContent st.content = .symbol) ∨
      (problem = .operandForm ∧ Kind.ofContent st.content = .computation) := by
  rw [resolveProblems] at h
  split at h
  · next name hname =>
    have hkind : Kind.ofContent st.content = .symbol := by
      by_contra hne
      rw [usedName?_of_ne_symbol hne] at hname
      cases hname
    split at h
    · cases h
    · split at h
      · exact Or.inl ⟨List.mem_singleton.1 h, hkind⟩
      · cases h
  · split at h
    · next hopens =>
      rw [Bool.and_eq_true, beq_iff_eq] at hopens
      exact Or.inr ⟨List.mem_singleton.1 h, hopens.2⟩
    · cases h

/-- **The second pass**, rejected at some command. -/
theorem stopped_resolving (hl : Assembled p l) (hgathered : Gathered p a)
    (h : resolve.run a.strictly = .error fault b) :
    ∃ d, fault = .rejected d ∧
      ∃ before command after, StoppedResolving p l b d before command after := by
  rw [resolve, run_atEachCommand] at h
  obtain ⟨before, command, after, c, hsplit, hbefore, hcommand⟩ := exists_of_visitAll_error h
  obtain ⟨earlier, rest, hinstructions, rfl, hrest⟩ :=
    List.map_eq_append_iff.1 (hgathered.commands.symm.trans hsplit)
  obtain ⟨st, later, rfl, rfl, rfl⟩ := List.map_eq_cons_iff.1 hrest
  -- up to this command the strict run is the lenient one
  obtain ⟨e, he, -, hres, hecommands⟩ := run_resolve_visited hgathered hsplit
  obtain ⟨rfl, -⟩ := (Lockstep.visitAll Lockstep.resolveCommand _).eq_strictly_of_ok
    hgathered.mode he hbefore
  obtain ⟨e', he', -, hnext, -⟩ := hres.resolveCommand st.gathered hecommands
  rw [map_statement_gathered] at hres hnext
  rw [← List.length_map Command.withKind] at hcommand
  have hds : e'.diagnostics.toList = e.diagnostics.toList
      ++ (resolveProblems p.isKnown earlier st).map st.diagnostic := by
    rw [hnext.diagnostics, hres.diagnostics, along_concat, List.append_assoc]
    rfl
  obtain ⟨d, hd, hfault⟩ :=
    (Lockstep.resolveCommand _ _).exists_rejected_of_error hres.mode he' hds hcommand
  obtain ⟨problem, hproblem, rfl⟩ := List.mem_map.1 hd
  obtain ⟨hb, hbcommands⟩ := resolveCommand_eq_error (a := e.strictly) hecommands rfl hcommand
  refine ⟨_, hfault, earlier.map p.command, p.command st, later.map p.command, ?_⟩
  refine ⟨?_, rfl, rfl, kind_of_mem_resolveProblems hproblem, ?_, fun name => ?_⟩
  · rw [hl.commands, hinstructions, List.map_append, List.map_cons]
  · rw [hbcommands, List.map_map, List.map_map, List.map_map]
    rfl
  · have hstatements : (earlier.map p.command).map Command.statement = earlier := by
      rw [List.map_map]
      exact List.map_id earlier
    have htable : b.table = e.table := by
      rw [hb]
      rfl
    rw [hstatements, htable, hres.table, addressAfter?_eq_ite hinstructions, hl.table,
      addressAfter?_instructions]

/-- **The third pass**, rejected at some command. -/
theorem stopped_encoding (hl : Assembled p l) (hline : l.line = a.line)
    (hlsound : l.Sound .lenient) (hbsound : b.Sound .strict)
    (hresolved : Resolved p p.instructions a)
    (hcommands : a.commands.toList = p.instructions.map Statement.resolved)
    (h : encode.run a.strictly = .error fault b) :
    ∃ d, fault = .rejected d ∧
      ∃ before command after, StoppedEncoding l b d before command after := by
  rw [encode, run_atEachCommand] at h
  obtain ⟨before, command, after, c, hsplit, hbefore, hcommand⟩ := exists_of_visitAll_error h
  obtain ⟨earlier, rest, hinstructions, rfl, hrest⟩ :=
    List.map_eq_append_iff.1 (hcommands.symm.trans hsplit)
  obtain ⟨st, later, rfl, rfl, rfl⟩ := List.map_eq_cons_iff.1 hrest
  -- up to this command the strict run is the lenient one
  obtain ⟨e, he, heline, hencoded, hecommands⟩ := run_encode_visited hresolved hcommands hsplit
  obtain ⟨rfl, -⟩ := (Lockstep.visitAll Lockstep.encodeCommand _).eq_strictly_of_ok
    hresolved.mode he hbefore
  have hst : st ∈ p.instructions := by
    rw [hinstructions]
    simp
  obtain ⟨e', he', -, hnext, -⟩ := hencoded.encodeCommand hst hecommands
  rw [map_statement_resolved] at hencoded hnext
  rw [List.map_map] at hecommands he'
  rw [List.length_map] at hcommand he'
  have hds : e'.diagnostics.toList = e.diagnostics.toList
      ++ (encodeProblems st).map st.diagnostic := by
    rw [hnext.diagnostics, hencoded.diagnostics, List.flatMap_append, List.append_assoc]
    simp
  obtain ⟨d, hd, hfault⟩ :=
    (Lockstep.encodeCommand _ _).exists_rejected_of_error hencoded.mode he' hds hcommand
  obtain ⟨problem, -, rfl⟩ := List.mem_map.1 hd
  obtain rfl := encodeCommand_eq_error hcommand
  have hlcommands : l.commands.toList
      = earlier.map p.command ++ p.command st :: later.map p.command := by
    rw [hl.commands, hinstructions, List.map_append, List.map_cons]
  have hbcommands : e.strictly.commands.toList = earlier.map p.command
      ++ (p.command st :: later.map p.command).map Command.unencoded := by
    rw [List.map_cons, List.map_map]
    exact hecommands
  refine ⟨_, hfault, earlier.map p.command, p.command st, later.map p.command, ?_⟩
  refine ⟨hlcommands, rfl, rfl, hbcommands, ?_, heline.trans hline.symm, ?_, ?_⟩
  · refine SymbolTable.ext_address? fun name => ?_
    rw [hl.table, ← addressAfter?_instructions]
    exact hencoded.table name
  · rw [hbsound.counter, hlsound.counter, ← Array.length_toList, ← Array.length_toList, hlcommands,
      hbcommands]
    simp
  · rw [hl.nextVariable, ← hencoded.nextVariable]
    rfl

end Passes

/-! ## Whole runs -/

/-- A run that fails does so in one of the passes. -/
theorem run_assemble_eq_error {source : Source} {b₀ b : Assembler} {fault : Fault}
    (h : (assemble source).run b₀ = .error fault b) :
    (firstPass source).run (.fresh b₀.mode) = .error fault b ∨
      (∃ g, (firstPass source).run (.fresh b₀.mode) = .ok () g ∧ resolve.run g = .error fault b) ∨
      ∃ r, (secondPass source).run (.fresh b₀.mode) = .ok () r ∧ encode.run r = .error fault b := by
  rw [run_assemble_eq, thirdPass, run_bind_eq_error] at h
  rcases h with h | ⟨_, r, hr, h⟩
  · rw [secondPass, run_bind_eq_error] at h
    rcases h with h | ⟨_, g, hg, h⟩
    · exact Or.inl h
    · rcases run_bind_eq_error.1 h with h | ⟨_, _, _, h⟩
      · exact Or.inr (Or.inl ⟨g, hg, h⟩)
      · cases h
  · rcases run_bind_eq_error.1 h with h | ⟨_, _, _, h⟩
    · exact Or.inr (Or.inr ⟨r, hr, h⟩)
    · cases h

/-- **What a strict failure leaves behind.**  A strict run over a text is rejected in one of the
three passes, and beside the lenient run over the same text its state is that of a run that stopped
there. -/
theorem strict_failure_leaves_behind (s : Bytes) (a₀ b₀ b : Assembler) (fault : Fault)
    (ha₀ : a₀.mode = .lenient) (hb₀ : b₀.mode = .strict)
    (h : (assemble { bytes := s, failure := none }).run b₀ = .error fault b) :
    ∃ l d, (assemble { bytes := s, failure := none }).run a₀ = .ok () l ∧ fault = .rejected d ∧
      ((firstPass { bytes := s, failure := none }).run (.fresh .strict) = .error fault b ∧
          StoppedGathering (ofText s) l b d ∨
        (∃ g, (firstPass { bytes := s, failure := none }).run (.fresh .strict) = .ok () g ∧
            resolve.run g = .error fault b) ∧
          (∃ before command after, StoppedResolving (ofText s) l b d before command after) ∨
        (∃ r, (secondPass { bytes := s, failure := none }).run (.fresh .strict) = .ok () r ∧
            encode.run r = .error fault b) ∧
          ∃ before command after, StoppedEncoding l b d before command after) := by
  obtain ⟨l, hlrun, hlline, hl⟩ := run_assemble s ha₀
  rw [← hb₀]
  rcases run_assemble_eq_error h with hfirst | ⟨g, hfirst, hresolve⟩ | ⟨r, hsecond, hencode⟩
  · have hgather : (gather { bytes := s, failure := none }).run (.fresh b₀.mode)
        = .error fault b := by
      rcases run_bind_eq_error.1 hfirst with hgather | ⟨_, _, _, hnote⟩
      · exact hgather
      · cases hnote
    rw [hb₀] at hgather
    obtain ⟨d, hfault, hstopped⟩ := stopped_gathering hl hgather
    exact ⟨l, d, hlrun, hfault, Or.inl ⟨hfirst, hstopped⟩⟩
  · obtain ⟨a, ha, -, hgathered⟩ := run_firstPass s
    have hg : g = a.strictly := by
      rw [hb₀] at hfirst
      exact ((Lockstep.firstPass _).eq_strictly_of_ok (a := .fresh .lenient) rfl ha hfirst).1
    obtain ⟨d, hfault, hstopped⟩ := stopped_resolving hl hgathered (hg ▸ hresolve)
    exact ⟨l, d, hlrun, hfault, Or.inr (Or.inl ⟨⟨g, hfirst, hresolve⟩, hstopped⟩)⟩
  · obtain ⟨a, ha, haline, hresolved, hcommands⟩ := run_secondPass s
    have hr : r = a.strictly := by
      rw [hb₀] at hsecond
      exact ((Lockstep.secondPass _).eq_strictly_of_ok (a := .fresh .lenient) rfl ha hsecond).1
    have hlsound : l.Sound .lenient := ha₀ ▸ sound_of_run hlrun
    have hbsound := sound_run_assemble { bytes := s, failure := none } b₀
    rw [h, hb₀] at hbsound
    obtain ⟨d, hfault, hstopped⟩ := stopped_encoding hl (hlline.trans haline.symm) hlsound hbsound
      hresolved hcommands (hr ▸ hencode)
    exact ⟨l, d, hlrun, hfault, Or.inr (Or.inr ⟨⟨r, hsecond, hencode⟩, hstopped⟩)⟩

/-- An operand that is neither a symbol nor a numeral stands behind a variable and a label that is
declared further down, and before a second variable. -/
theorem strict_failure_leaves_behind_operand :
    (Assembler.fresh .lenient).mode = .lenient ∧ (Assembler.fresh .strict).mode = .strict ∧
      ∃ l b before command after,
        (assemble ⟨ascii "@x\n@L\n@1y\n@z\n(L)\nD=M", none⟩).run (.fresh .lenient) = .ok () l ∧
        (assemble ⟨ascii "@x\n@L\n@1y\n@z\n(L)\nD=M", none⟩).run (.fresh .strict)
          = .error (.rejected ⟨3, ascii "@1y", .operandForm⟩) b ∧
        StoppedResolving (ofText (ascii "@x\n@L\n@1y\n@z\n(L)\nD=M")) l b
          ⟨3, ascii "@1y", .operandForm⟩ before command after := by
  have hfault : Outcome.fault?
      ((assemble ⟨ascii "@x\n@L\n@1y\n@z\n(L)\nD=M", none⟩).run (.fresh .strict))
        = some (.rejected ⟨3, ascii "@1y", .operandForm⟩) := by decide +kernel
  have hfirst : Outcome.fault?
      ((firstPass ⟨ascii "@x\n@L\n@1y\n@z\n(L)\nD=M", none⟩).run (.fresh .strict)) = none := by
    decide +kernel
  have hsecond : Outcome.fault?
      ((secondPass ⟨ascii "@x\n@L\n@1y\n@z\n(L)\nD=M", none⟩).run (.fresh .strict)) ≠ none := by
    decide +kernel
  obtain ⟨b, hrun⟩ := Outcome.fault?_eq_some.1 hfault
  obtain ⟨l, d, hlrun, hd, hstopped⟩ := strict_failure_leaves_behind _ (.fresh .lenient)
    (.fresh .strict) b _ rfl rfl hrun
  cases hd
  rcases hstopped with ⟨herror, -⟩ | ⟨-, before, command, after, hstopped⟩ | ⟨⟨r, hok, -⟩, -⟩
  · rw [herror] at hfirst
    cases hfirst
  · exact ⟨rfl, rfl, l, b, before, command, after, hlrun, hrun, hstopped⟩
  · rw [hok] at hsecond
    exact absurd rfl hsecond

end HackAssembly
