import HackAssembly.Proofs.LineForm
import HackAssembly.Proofs.Outcomes
import HackAssembly.Proofs.Resolution

/-!
# What holds in every state

An assembler may be used again and again: whole runs, single passes in any order, fresh starts, on
sources that can be read and on others, and going on after a failure.  In every state that is
reached in this way the assembler is `Sound` (`session_sound`).  This is what the passes rely on
when they take a line apart without looking: no content is empty, a symbol or a constant has its
mark in front, and a symbol that is looked up is bound.

A step is made of actions, and `Sound` is kept by each change that an action makes to the state:
`Sound.diagnose`, `Sound.trace`, `Sound.insert`, `Sound.allocate`, `Sound.push`, `Sound.replace`.
Twice an order matters.  A line is counted before its command is kept, which is why lines increase;
and a command gets its kind before its symbol gets an address, which is why a symbol can be left
without one, but only in strict mode.
-/

namespace HackAssembly

open Assembly Program

/-! ## Words -/

def IsWord (text : Bytes) : Prop :=
  text.length = 16 ∧ (∀ b ∈ text, b = 0x30 ∨ b = 0x31) ∧ (ascii "0" <+: text ∨ ascii "111" <+: text)

theorem isWord_encode (i : Instruction) : IsWord (Binary.render i.encode) := by
  refine ⟨Binary.length_render _, fun b hb => ?_, ?_⟩
  · simpa [Binary.isDigit] using Binary.isDigit_of_mem_render hb
  · cases i with
    | address value =>
      rw [render_encode_address]
      exact Or.inl ⟨_, rfl⟩
    | compute comp dest jump =>
      rw [Instruction.encode, Word.render_ofFields, List.append_assoc, List.append_assoc]
      exact Or.inr (List.prefix_append _ _)

/-! ## Sound states -/

/-- A command as every state holds it, with the table of that state. -/
structure Command.Sound (mode : Mode) (table : SymbolTable) (command : Command) : Prop where
  nonempty : command.content ≠ []
  unblank : ∀ b ∈ command.content, Byte.isBlank b = false
  unlabelled : ¬ ∃ name, Declares command.content name
  constant : command.kind = .constant → ∃ digits, LoadsConstant command.content digits
  /-- In lenient mode the symbol of a command is bound. -/
  symbol : command.kind = .symbol → ∃ name, UsesSymbol command.content name ∧
    (mode = .lenient → table.contains name = true)
  code : command.codeText = [] ∨ IsWord command.codeText

/-- What holds in every state of an assembler. -/
structure Assembler.Sound (mode : Mode) (a : Assembler) : Prop where
  mode_eq : a.mode = mode
  counter : a.nextInstruction = a.commands.size
  increasing : (a.commands.toList.map Command.line).Pairwise (· < ·)
  counted : ∀ command ∈ a.commands.toList, 1 ≤ command.line ∧ command.line ≤ a.line
  commands : ∀ command ∈ a.commands.toList, command.Sound mode a.table
  predefined : ∀ entry ∈ SymbolTable.predefinedEntries, a.table.contains entry.1 = true
  symbols : ∀ name, a.table.contains name = true → Symbol.isSymbol name = true
  addresses : ∀ name address, a.table.address? name = some address → address.toNat ≤ 32767
  first : 16 ≤ a.nextVariable
  /-- Each variable has a name beside the twenty-three predefined ones. -/
  room : 23 + (a.nextVariable - 16) ≤ a.table.size
  silent : mode = .strict → a.diagnostics = #[]

theorem Command.Sound.mono {mode : Mode} {t u : SymbolTable} {command : Command}
    (h : command.Sound mode t) (htu : ∀ name, t.contains name = true → u.contains name = true) :
    command.Sound mode u := by
  refine ⟨h.nonempty, h.unblank, h.unlabelled, h.constant, fun hkind => ?_, h.code⟩
  obtain ⟨name, huse, hbound⟩ := h.symbol hkind
  exact ⟨name, huse, fun hmode => htu name (hbound hmode)⟩

theorem Command.Sound.withKind {mode : Mode} {t u : SymbolTable} {command : Command}
    (h : command.Sound mode t) (hbound : mode = .lenient → ∀ name,
      UsesSymbol command.content name → u.contains name = true) :
    command.withKind.Sound mode u := by
  refine ⟨h.nonempty, h.unblank, h.unlabelled, ofContent_eq_constant.1, ?_, h.code⟩
  intro hsymbol
  obtain ⟨name, huse⟩ := ofContent_eq_symbol.1 hsymbol
  exact ⟨name, huse, fun hmode => hbound hmode name huse⟩

theorem Command.Sound.withCode {mode : Mode} {t : SymbolTable} {command : Command}
    (h : command.Sound mode t) (i : Instruction) :
    Command.Sound mode t { command with code := some i.encode } :=
  ⟨h.nonempty, h.unblank, h.unlabelled, h.constant, h.symbol, Or.inr (isWord_encode i)⟩

theorem contains_insert_of_contains {t : SymbolTable} {name other : Bytes} (address : Address)
    (h : t.contains other = true) : (t.insert name address).contains other = true := by
  rw [SymbolTable.contains_insert, h, Bool.or_true]

theorem toNat_wrapped_le (n : Nat) : (wrapped n).toNat ≤ 32767 := by
  rw [toNat_wrapped]
  omega

theorem mem_predefinedEntries {name : Bytes} {address : Address}
    (h : SymbolTable.predefined.address? name = some address) :
    (name, address) ∈ SymbolTable.predefinedEntries := by
  rcases mem_of_address?_foldl_insert h with hin | hin
  · exact hin
  · simp [SymbolTable.empty, SymbolTable.address?] at hin

namespace Assembler.Sound

variable {mode : Mode} {a : Assembler}

theorem fresh (mode : Mode) : Sound mode (.fresh mode) where
  mode_eq := rfl
  counter := rfl
  increasing := List.Pairwise.nil
  counted := by simp [Assembler.fresh]
  commands := by simp [Assembler.fresh]
  predefined := by
    show ∀ entry ∈ SymbolTable.predefinedEntries, SymbolTable.predefined.contains entry.1 = true
    decide +kernel
  symbols := by
    intro name hname
    have hall : ∀ entry ∈ SymbolTable.predefinedEntries, Symbol.isSymbol entry.1 = true := by
      decide +kernel
    rw [SymbolTable.contains_eq_isSome, Option.isSome_iff_exists] at hname
    obtain ⟨address, haddress⟩ := hname
    exact hall _ (mem_predefinedEntries haddress)
  addresses := by
    intro name address haddress
    have hall : ∀ entry ∈ SymbolTable.predefinedEntries, entry.2.toNat ≤ 32767 := by
      decide +kernel
    exact hall _ (mem_predefinedEntries haddress)
  first := Nat.le_refl 16
  room := by
    show 23 ≤ SymbolTable.predefined.size
    decide +kernel
  silent := fun _ => rfl

/-! ## Changes of the state -/

theorem diagnose (h : Sound mode a) {ds : List Diagnostic} (hds : a.mode = .strict → ds = []) :
    Sound mode (a.diagnose ds) where
  __ := h
  silent := by
    intro hmode
    rw [hds (h.mode_eq.trans hmode), Assembler.diagnose_nil]
    exact h.silent hmode

theorem trace (h : Sound mode a) (trace : Array Event) : Sound mode { a with trace } where
  __ := h

theorem insert (h : Sound mode a) {name : Bytes} (hname : Symbol.isSymbol name = true)
    {address : Address} (haddress : address.toNat ≤ 32767) :
    Sound mode { a with table := a.table.insert name address } where
  __ := h
  commands := fun command hcommand =>
    (h.commands command hcommand).mono fun _ => contains_insert_of_contains address
  predefined := fun entry hentry =>
    contains_insert_of_contains address (h.predefined entry hentry)
  symbols := by
    intro other hother
    rw [SymbolTable.contains_insert, Bool.or_eq_true, decide_eq_true_iff] at hother
    rcases hother with rfl | hother
    · exact hname
    · exact h.symbols other hother
  addresses := by
    intro other address' hother
    rw [SymbolTable.address?_insert] at hother
    split at hother
    · rw [← Option.some.inj hother]
      exact haddress
    · exact h.addresses other address' hother
  room := by
    show 23 + (a.nextVariable - 16) ≤ (a.table.insert name address).size
    have hroom := h.room
    rw [SymbolTable.size_insert]
    split <;> omega

/-- A new name makes room for one more variable. -/
theorem allocate (h : Sound mode a) {name : Bytes} (hname : Symbol.isSymbol name = true)
    (hnew : a.table.contains name = false) {address : Address} (haddress : address.toNat ≤ 32767) :
    Sound mode { a with
      table := a.table.insert name address
      nextVariable := a.nextVariable + 1 } where
  __ := h.insert hname haddress
  first := Nat.le_succ_of_le h.first
  room := by
    show 23 + (a.nextVariable + 1 - 16) ≤ (a.table.insert name address).size
    have hroom := h.room
    have hfirst := h.first
    rw [SymbolTable.size_insert, hnew, if_neg (by simp)]
    omega

theorem countLine (h : Sound mode a) : Sound mode { a with line := a.line + 1 } where
  __ := h
  counted := fun command hcommand =>
    ⟨(h.counted command hcommand).1, Nat.le_succ_of_le (h.counted command hcommand).2⟩

/-- A line that comes behind those of all commands can be kept as a command. -/
theorem push (h : Sound mode a) (hline : ∀ command ∈ a.commands.toList, command.line < a.line)
    (hpos : 1 ≤ a.line) {content : Bytes} (hne : content ≠ [])
    (hblank : ∀ b ∈ content, Byte.isBlank b = false) (hlabel : declaredLabel? content = none) :
    Sound mode { a with
      commands := a.commands.push { line := a.line, content }
      nextInstruction := a.nextInstruction + 1 } where
  __ := h
  counter := by
    show a.nextInstruction + 1 = (a.commands.push _).size
    rw [Array.size_push, h.counter]
  increasing := by
    show ((a.commands.push _).toList.map Command.line).Pairwise (· < ·)
    rw [Array.toList_push, List.map_append, List.pairwise_append]
    refine ⟨h.increasing, List.pairwise_singleton _ _, ?_⟩
    rw [List.forall_mem_map]
    intro command hcommand n hn
    rw [List.mem_singleton.1 hn]
    exact hline command hcommand
  counted := by
    intro command hcommand
    rw [Array.toList_push, List.mem_append, List.mem_singleton] at hcommand
    rcases hcommand with hcommand | rfl
    · exact h.counted command hcommand
    · exact ⟨hpos, Nat.le_refl _⟩
  commands := by
    intro command hcommand
    rw [Array.toList_push, List.mem_append, List.mem_singleton] at hcommand
    rcases hcommand with hcommand | rfl
    · exact h.commands command hcommand
    · exact ⟨hne, hblank, declaredLabel?_eq_none_iff.1 hlabel, by simp, by simp, Or.inl rfl⟩

/-- A command can be replaced by another one of the same line. -/
theorem replace (h : Sound mode a) {before after : List Command} {old command : Command}
    (hcommands : a.commands.toList = before ++ old :: after) {commands : Array Command}
    (hset : commands.toList = before ++ command :: after) (hline : command.line = old.line)
    (hsound : command.Sound mode a.table) : Sound mode { a with commands } := by
  have hold : old ∈ a.commands.toList := by
    rw [hcommands]
    simp
  have hmem : ∀ other ∈ commands.toList, other = command ∨ other ∈ a.commands.toList := by
    rw [hset, hcommands]
    intro other hother
    simp only [List.mem_append, List.mem_cons] at hother ⊢
    tauto
  refine { h with counter := ?_, increasing := ?_, counted := ?_, commands := ?_ }
  · show a.nextInstruction = commands.size
    rw [h.counter, ← Array.length_toList, ← Array.length_toList, hset, hcommands]
    simp
  · have hincreasing := h.increasing
    rw [hcommands, List.map_append, List.map_cons, ← hline] at hincreasing
    show (commands.toList.map Command.line).Pairwise (· < ·)
    rwa [hset, List.map_append, List.map_cons]
  · intro other hother
    rcases hmem other hother with rfl | hother
    · rw [hline]
      exact h.counted old hold
    · exact h.counted other hother
  · intro other hother
    rcases hmem other hother with rfl | hother
    · exact hsound
    · exact h.commands other hother

end Assembler.Sound

/-! ## The passes -/

open Assembler (Sound)

variable {mode : Mode}

theorem isBlank_of_mem_normalise {line : Bytes} :
    ∀ b ∈ normalise line, Byte.isBlank b = false := by
  intro b hb
  simpa using (List.mem_filter.1 hb).2

/-- **One line of the first pass.** -/
theorem keeps_gatherLine (line : Bytes) : Keeps (Sound mode) (gatherLine line) := by
  intro a ha
  have hnext := ha.countLine
  have hlast : ∀ command ∈ a.commands.toList, command.line < a.line + 1 :=
    fun command hcommand => Nat.lt_succ_of_le (ha.counted command hcommand).2
  rw [gatherLine, run_bind_of_ok (EStateM.run_modify _ a), gatherContent]
  split
  · exact hnext
  · next hne =>
    cases hlabel : declaredLabel? (normalise line) with
    | some label =>
      have hsymbol := (declaredLabel?_eq_some.1 hlabel).1
      obtain ⟨ds, hds, hrun⟩ | ⟨d, -, hrun⟩ :=
        declareLabel_outcome { a with line := a.line + 1 } (normalise line) label
      · dsimp only
        rw [hrun]
        exact ((hnext.diagnose hds).insert hsymbol (toNat_wrapped_le _)).trace _
      · dsimp only
        rw [hrun]
        exact hnext
    | none =>
      obtain ⟨ds, hds, hrun⟩ | ⟨d, -, hrun⟩ :=
        addCommand_outcome { a with line := a.line + 1 } (normalise line)
      · dsimp only
        rw [hrun]
        exact (hnext.diagnose hds).push hlast (Nat.le_add_left 1 a.line) (by simpa using hne)
          isBlank_of_mem_normalise hlabel
      · dsimp only
        rw [hrun]
        exact hnext

/-- **One command of the second pass.**  Only in strict mode can it end between the kind and the
address. -/
theorem resolveCommand_sound {a : Assembler} (ha : Sound mode a) {before after : List Command}
    {command : Command} (hcommands : a.commands.toList = before ++ command :: after) :
    Sound mode (Outcome.state ((resolveCommand before.length command).run a)) ∧
      ∀ b, (resolveCommand before.length command).run a = .ok () b →
        ∃ other, b.commands.toList = before ++ other :: after := by
  have hold : command.Sound mode a.table := ha.commands command (by rw [hcommands]; simp)
  -- a line that uses no symbol needs no address
  have hplain : Kind.ofContent command.content ≠ .symbol → command.withKind.Sound mode a.table :=
    fun hne => hold.withKind fun _ name huse => absurd (ofContent_eq_symbol.2 ⟨name, huse⟩) hne
  obtain ⟨commands, hrun, hset⟩ := run_setCommand hcommands command.withKind
  rw [Command.withKind] at hrun
  rw [resolveCommand]
  cases hcontent : Kind.ofContent command.content with
  | constant =>
    rw [hcontent] at hrun
    dsimp only
    rw [hrun]
    refine ⟨ha.replace hcommands hset rfl (hplain (by rw [hcontent]; decide)), ?_⟩
    rintro b ⟨⟩
    exact ⟨_, hset⟩
  | computation =>
    have hnext := hplain (by rw [hcontent]; decide)
    rw [hcontent] at hrun
    dsimp only
    split
    · obtain ⟨ds, hds, hreport⟩ | ⟨d, -, hreport⟩ :=
        (report_outcome a command.line command.content .operandForm).run_bind fun _ =>
          setCommand before.length { command with kind := .computation }
      · obtain ⟨commands, hrun, hset⟩ :=
          run_setCommand (a := a.diagnose ds) hcommands command.withKind
        rw [Command.withKind, hcontent] at hrun
        rw [hreport, hrun]
        refine ⟨(ha.diagnose hds).replace hcommands hset rfl hnext, ?_⟩
        rintro b ⟨⟩
        exact ⟨_, hset⟩
      · rw [hreport]
        exact ⟨ha, by rintro b ⟨⟩⟩
    · rw [hrun]
      refine ⟨ha.replace hcommands hset rfl hnext, ?_⟩
      rintro b ⟨⟩
      exact ⟨_, hset⟩
  | symbol =>
    rw [hcontent] at hrun
    dsimp only
    rw [run_bind_of_ok hrun]
    obtain ⟨name, huse⟩ := ofContent_eq_symbol.1 hcontent
    have hname : command.content.drop 1 = name := by rw [huse.2]; rfl
    have hone : ∀ other, UsesSymbol command.content other → other = name := by
      intro other hother
      rw [← hname, hother.2]
      rfl
    rw [hname]
    obtain ⟨hbound, hallocate⟩ | ⟨ds, hds, hnew, hallocate⟩ | ⟨d, hmode, hallocate⟩ :=
      allocate_outcome { a with commands } command.line command.content name
    · rw [hallocate]
      refine ⟨ha.replace hcommands hset rfl (hold.withKind fun _ other hother => ?_), ?_⟩
      · rw [hone other hother]
        exact hbound
      · rintro b ⟨⟩
        exact ⟨_, hset⟩
    · have hnext := ((ha.diagnose hds).allocate huse.1 hnew (toNat_wrapped_le a.nextVariable)).trace
        (a.trace.push (.variableAllocated name a.nextVariable))
      rw [hallocate]
      refine ⟨hnext.replace hcommands hset rfl (hold.withKind fun _ other hother => ?_), ?_⟩
      · rw [hone other hother, SymbolTable.contains_insert]
        simp
      · rintro b ⟨⟩
        exact ⟨_, hset⟩
    · rw [hallocate]
      refine ⟨ha.replace hcommands hset rfl (hold.withKind fun hlenient => ?_), by rintro b ⟨⟩⟩
      rw [show a.mode = mode from ha.mode_eq, hlenient] at hmode
      exact absurd hmode (by decide)

/-- **One command of the third pass.** -/
theorem encodeCommand_sound {a : Assembler} (ha : Sound mode a) {before after : List Command}
    {command : Command} (hcommands : a.commands.toList = before ++ command :: after) :
    Sound mode (Outcome.state ((encodeCommand before.length command).run a)) ∧
      ∀ b, (encodeCommand before.length command).run a = .ok () b →
        ∃ other, b.commands.toList = before ++ other :: after := by
  have hold : command.Sound mode a.table := ha.commands command (by rw [hcommands]; simp)
  rw [encodeCommand]
  rcases encodeContent_outcome a command.kind command.line command.content with ⟨i, hi⟩ | hrun
  · cases hi with
    | recorded ds hds hrun =>
      obtain ⟨commands, hcode, hset⟩ := run_setCommand (a := a.diagnose ds) hcommands
        { command with code := some i.encode }
      rw [run_bind_of_ok hrun, hcode]
      refine ⟨(ha.diagnose hds).replace hcommands hset rfl (hold.withCode i), ?_⟩
      rintro b ⟨⟩
      exact ⟨_, hset⟩
    | rejected d _ hrun =>
      rw [run_bind_of_error hrun]
      exact ⟨ha, by rintro b ⟨⟩⟩
  · rw [run_bind_of_error hrun]
    exact ⟨ha, by rintro b ⟨⟩⟩

/-! ## Sessions -/

/-- A step that an assembler can take. -/
inductive Step where
  | assemble (source : Source)
  | assembleTo (source : Source) (sink : Sink)
  | reset
  | gather (source : Source)
  | resolve
  | encode

/-- The state after a step, whether it succeeds or not. -/
def Step.perform (a : Assembler) : Step → Assembler
  | assemble source => Outcome.state ((Assembly.assemble source).run a)
  | assembleTo source sink => Outcome.state (a.assembleTo source sink).2
  | reset => Outcome.state (Assembly.reset.run a)
  | gather source => Outcome.state ((Assembly.gather source).run a)
  | resolve => Outcome.state (Assembly.resolve.run a)
  | encode => Outcome.state (Assembly.encode.run a)

theorem keeps_reset : Keeps (Sound mode) Assembly.reset := by
  intro a ha
  show Sound mode (.fresh a.mode)
  rw [ha.mode_eq]
  exact Assembler.Sound.fresh mode

theorem keeps_gather (source : Source) : Keeps (Sound mode) (Assembly.gather source) :=
  Keeps.gather keeps_gatherLine source

theorem keeps_resolve : Keeps (Sound mode) Assembly.resolve :=
  Keeps.atEachCommand fun _ _ _ _ ha hcommands => resolveCommand_sound ha hcommands

theorem keeps_encode : Keeps (Sound mode) Assembly.encode :=
  Keeps.atEachCommand fun _ _ _ _ ha hcommands => encodeCommand_sound ha hcommands

theorem keeps_assemble (source : Source) : Keeps (Sound mode) (Assembly.assemble source) :=
  Keeps.assemble keeps_reset (fun _ _ ha => ha.trace _) (keeps_gather source) keeps_resolve
    keeps_encode

theorem sound_run_assemble (source : Source) (a : Assembler) :
    (Outcome.state ((Assembly.assemble source).run a)).Sound a.mode :=
  keeps_assemble source (.fresh a.mode) (Assembler.Sound.fresh a.mode)

theorem sound_of_run {source : Source} {a₀ a : Assembler}
    (h : (Assembly.assemble source).run a₀ = .ok () a) : a.Sound a₀.mode := by
  have hsound := sound_run_assemble source a₀
  rwa [h] at hsound

/-- Writing the program changes nothing in the state. -/
theorem state_assembleTo (a : Assembler) (source : Source) (sink : Sink) :
    Outcome.state (a.assembleTo source sink).2
      = Outcome.state ((Assembly.assemble source).run a) := by
  have hrun : Assembly.assemble source a = (Assembly.assemble source).run a := rfl
  rw [Assembler.assembleTo, hrun]
  cases (Assembly.assemble source).run a with
  | error fault b => rfl
  | ok _ b =>
    dsimp only [Sink.write]
    cases sink.refusal b.program <;> rfl

/-- **One step.** -/
theorem Step.perform_sound {a : Assembler} (h : Sound mode a) (step : Step) :
    Sound mode (step.perform a) := by
  cases step with
  | assemble source => exact keeps_assemble source a h
  | assembleTo source sink =>
    rw [perform, state_assembleTo]
    exact keeps_assemble source a h
  | reset => exact keeps_reset a h
  | gather source => exact keeps_gather source a h
  | resolve => exact keeps_resolve a h
  | encode => exact keeps_encode a h

/-- **Every state is sound** that an assembler reaches from its creation by any steps. -/
theorem session_sound (mode : Mode) (steps : List Step) :
    Sound mode (steps.foldl (fun a step => step.perform a) (.fresh mode)) := by
  induction steps using List.reverseRecOn with
  | nil => exact Assembler.Sound.fresh mode
  | append_singleton steps step ih =>
    rw [List.foldl_concat]
    exact step.perform_sound ih

end HackAssembly
