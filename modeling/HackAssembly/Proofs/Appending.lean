import HackAssembly.Proofs.Renumbering
import HackAssembly.Proofs.StrictLanguage

/-!
# Code behind a program

What stands behind a program can reach it only through the labels that it declares.  All labels are
bound before any symbol is resolved, so a label that is declared further down changes what the
program means where it uses that name: the name may have been a variable, a predefined name or a
label declared before.  When the program uses none of these labels, it is assembled as it was, and
the words of the new code come behind its own (`appended_code_is_stable`).

A text that is laid behind a complete one has its own statements, on lines that go on counting
(`ofText_append`).  The rest is about programs: each name that the first one uses stands for the
same in both (`address_append`).  It is a label of both or of neither, and the variables before its
first use are the same, because they are used in the first program as well.
-/

namespace HackAssembly

open Assembly

namespace Program

/-! ## Programs laid end to end -/

theorem ofLines_append (ls ms : List Bytes) :
    ofLines (ls ++ ms) = ofLines ls ++ (ofLines ms).map (Statement.renumber (ls.length + ·)) := by
  induction ms using List.reverseRecOn with
  | nil => simp [ofLines]
  | append_singleton ms m ih =>
    rw [← List.append_assoc, ofLines_concat, ih, ofLines_concat, List.map_append,
      List.append_assoc, List.length_append]
    congr 2
    split
    · rfl
    · rfl

theorem ofText_append {s t : Bytes} (hs : Complete s) (hst : ¬ Straddled s t) :
    ofText (s ++ t)
      = ofText s ++ (ofText t).map (Statement.renumber ((lines s).length + ·)) := by
  rw [ofText, lines_append hs hst, ofLines_append]
  rfl

theorem instructions_append (p q : Program) :
    instructions (p ++ q) = p.instructions ++ q.instructions := List.filter_append p q

theorem uses_append (p q : Program) : uses (p ++ q) = p.uses ++ q.uses := by
  rw [uses, instructions_append, usedNames, List.filterMap_append]
  rfl

/-! ## What names stand for -/

variable {p q : Program}

/-- Only a declaration can move a label. -/
theorem labelAddress?_append {name : Bytes} (h : ∀ st ∈ q, ¬ Declares st.content name) :
    labelAddress? (p ++ q) name = p.labelAddress? name := by
  induction q using List.reverseRecOn with
  | nil => rw [List.append_nil]
  | append_singleton q st ih =>
    have hlast : st.label? ≠ some name := by
      intro hlabel
      exact h st (by simp) (declaredLabel?_eq_some.1 hlabel)
    rw [← List.append_assoc, labelAddress?_concat, if_neg hlast]
    exact ih fun su hsu => h su (by simp [hsu])

theorem isKnown_append {name : Bytes} (h : ∀ st ∈ q, ¬ Declares st.content name) :
    isKnown (p ++ q) name = p.isKnown name := by
  rw [isKnown, labelAddress?_append h, isKnown]

theorem ordinal_congr {known known' : Bytes → Bool} {names : List Bytes}
    (h : ∀ other ∈ names, known' other = known other) (name : Bytes) :
    ordinal known' names name = ordinal known names name := by
  have hsame : ∀ other ∈ names.takeWhile (· != name), known' other = known other := by
    intro other hother
    exact h other ((List.takeWhile_sublist _).subset hother)
  rw [ordinal, ordinal, unknowns, unknowns]
  congr 2
  apply List.filter_congr
  intro other hother
  rw [hsame other hother]

/-- **Each name that a program uses stands for the same** when more code comes behind it that does
not declare it. -/
theorem address_append (h : ∀ other ∈ p.uses, ∀ st ∈ q, ¬ Declares st.content other)
    {name : Bytes} (hname : name ∈ p.uses) : address (p ++ q) name = p.address name := by
  have hordinal : variableOrdinal (p ++ q) name = p.variableOrdinal name := by
    rw [variableOrdinal, uses_append, ordinal_append_of_mem hname]
    exact ordinal_congr (fun other hother => isKnown_append (h other hother)) name
  rw [address, labelAddress?_append (h name hname), hordinal, address]

theorem command_append (h : ∀ other ∈ p.uses, ∀ st ∈ q, ¬ Declares st.content other)
    {st : Statement} (hst : st ∈ p.instructions) : command (p ++ q) st = p.command st := by
  have hinstruction : instruction (p ++ q) st.content = p.instruction st.content := by
    rw [instruction, instruction]
    cases hkind : Kind.ofContent st.content with
    | symbol =>
      have hused : st.content.drop 1 ∈ p.uses :=
        List.mem_filterMap.2 ⟨st, hst, usedName?_of_symbol hkind⟩
      dsimp only
      rw [address_append h hused]
    | constant => rfl
    | computation => rfl
  rw [command, hinstruction, command]

end Program

/-! ## Runs -/

open Program

/-- **Appending code is stable.**  When a text is laid behind a complete one and declares no label
that this one uses, the commands of the first text stay as they are, with their kinds, words and
lines, in front of the new ones, and each name that the first text uses, be it a variable or not,
keeps its address. -/
theorem appended_code_is_stable (s t : Bytes) (hs : Complete s) (hst : ¬ Straddled s t)
    (hfree : ∀ st ∈ ofText t, ∀ name, Declares st.content name →
      ∀ su ∈ ofText s, ¬ UsesSymbol su.content name)
    (a₀ b₀ : Assembler) (ha₀ : a₀.mode = .lenient) (hb₀ : b₀.mode = .lenient) :
    ∃ a b, (assemble { bytes := s, failure := none }).run a₀ = .ok () a ∧
      (assemble { bytes := s ++ t, failure := none }).run b₀ = .ok () b ∧
      a.codes <+: b.codes ∧ a.commands.toList <+: b.commands.toList ∧
      ∀ su ∈ ofText s, ∀ name, UsesSymbol su.content name →
        ∃ address, a.table.address? name = some address ∧
          b.table.address? name = some address := by
  obtain ⟨a, hrun, -, ha⟩ := run_assemble s ha₀
  obtain ⟨b, hrun', -, hb⟩ := run_assemble (s ++ t) hb₀
  rw [ofText_append hs hst] at hb
  have hunused : ∀ other ∈ (ofText s).uses,
      ∀ st ∈ (ofText t).map (Statement.renumber ((lines s).length + ·)),
        ¬ Declares st.content other := by
    intro other hother st hmem hdeclares
    obtain ⟨su, hsu, huse⟩ := mem_uses.1 hother
    obtain ⟨sv, hsv, rfl⟩ := List.mem_map.1 hmem
    exact hfree sv hsv other hdeclares su hsu huse
  have hcommands : a.commands.toList <+: b.commands.toList := by
    rw [ha.commands, hb.commands, instructions_append, List.map_append]
    have hsame : (ofText s).instructions.map (ofText s).command = (ofText s).instructions.map
        (command (ofText s ++ (ofText t).map (Statement.renumber ((lines s).length + ·)))) :=
      List.map_congr_left fun st hst => (command_append hunused hst).symm
    rw [hsame]
    exact List.prefix_append _ _
  refine ⟨a, b, hrun, hrun', hcommands.map Command.codeText, hcommands, ?_⟩
  intro su hsu name huse
  have hname : name ∈ (ofText s).uses := mem_uses.2 ⟨su, hsu, huse⟩
  refine ⟨wrapped ((ofText s).address name), ?_, ?_⟩
  · rw [ha.table, if_pos (by simp [hname])]
  · rw [hb.table, if_pos (by simp [uses_append, hname]), address_append hunused hname]

/-- Behind a program with a label, a variable and a label that it does not use, the last one is
declared again, and the variable is used once more behind a new one. -/
theorem appended_code_is_stable_redeclared :
    Complete (ascii "(K)\n@x\n(L)\n@L\n") ∧
      ¬ Straddled (ascii "(K)\n@x\n(L)\n@L\n") (ascii "(K)\n@y\n@x\n@K") ∧
      ∃ a b, (assemble ⟨ascii "(K)\n@x\n(L)\n@L\n", none⟩).run (.fresh .lenient) = .ok () a ∧
        (assemble ⟨ascii "(K)\n@x\n(L)\n@L\n" ++ ascii "(K)\n@y\n@x\n@K", none⟩).run
          (.fresh .lenient) = .ok () b ∧ a.codes <+: b.codes ∧
        ∃ address, a.table.address? (ascii "x") = some address ∧
          b.table.address? (ascii "x") = some address := by
  have hs : Complete (ascii "(K)\n@x\n(L)\n@L\n") := Or.inr ⟨ascii "(K)\n@x\n(L)\n@L", .lf, rfl⟩
  have hst : ¬ Straddled (ascii "(K)\n@x\n(L)\n@L\n") (ascii "(K)\n@y\n@x\n@K") := by
    intro h
    exact absurd h.1 (by decide)
  have hnames : ∀ st ∈ ofText (ascii "(K)\n@y\n@x\n@K"), ∀ su ∈ ofText (ascii "(K)\n@x\n(L)\n@L\n"),
      st.label? = none ∨ st.label? ≠ usedName? su.content := by decide +kernel
  have hvariable : UsesSymbol (ascii "@x") (ascii "x") := usedName?_eq_some.1 (by decide +kernel)
  obtain ⟨a, b, hrun, hrun', hcodes, -, haddress⟩ := appended_code_is_stable _ _ hs hst (by
    intro st hmem name hdeclares su hsu huse
    rcases hnames st hmem su hsu with hnone | hne
    · rw [Statement.label?, declaredLabel?_eq_some.2 hdeclares] at hnone
      cases hnone
    · rw [Statement.label?, declaredLabel?_eq_some.2 hdeclares, usedName?_eq_some.2 huse] at hne
      exact hne rfl) (.fresh .lenient) (.fresh .lenient) rfl rfl
  exact ⟨hs, hst, a, b, hrun, hrun', hcodes,
    haddress ⟨2, ascii "@x"⟩ (by decide +kernel) _ hvariable⟩

end HackAssembly
