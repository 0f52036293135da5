import HackAssembly.Proofs.Soundness
import HackAssembly.Proofs.StrictLanguage
import Mathlib.Data.List.Forall2
import Mathlib.Logic.Equiv.Basic

/-!
# Renaming symbols

The names of labels and variables leave no trace in the words.  A `Renaming` changes symbols into
symbols, different ones into different ones, and leaves the predefined names alone.  Two programs
are `Renamed` when the lines of the one are those of the other with their symbols renamed.

Then a name stands for the same address in the one program as its new name does in the other
(`Renamed.address`), since everything that this depends on is carried over: which names are labels
and how many instructions come before them, which names are predefined, and how many variables come
before a name.  From this follow the words of the instructions (`Renamed.digits`), the problems that
the passes meet (`Renamed.problems`), and what a whole run leaves behind
(`renamed_program_assembles_alike`).

The programs are compared statement by statement, without the numbers of the lines.  The last
declaration of a label counts, so the comparison is taken apart from the back
(`forall₂_concatInduction`).
-/

namespace HackAssembly

open Assembly Program

/-- A change of names that keeps symbols apart and the predefined names as they are. -/
structure Renaming where
  map : Bytes → Bytes
  symbol : ∀ name, Symbol.isSymbol name = true → Symbol.isSymbol (map name) = true
  injective : ∀ name other, Symbol.isSymbol name = true → Symbol.isSymbol other = true →
    map name = map other → name = other
  fixes : ∀ entry ∈ SymbolTable.predefinedEntries, map entry.1 = entry.1

/-- A line and the same line with its symbol renamed. -/
inductive Renaming.Line (r : Renaming) : Bytes → Bytes → Prop
  | declaration {name : Bytes} (h : Symbol.isSymbol name = true) :
    Line r (Byte.openParen :: (name ++ [Byte.closeParen]))
      (Byte.openParen :: (r.map name ++ [Byte.closeParen]))
  | symbol {name : Bytes} (h : Symbol.isSymbol name = true) :
    Line r (Byte.atSign :: name) (Byte.atSign :: r.map name)
  | other {content : Bytes} (hlabel : ¬ ∃ name, Declares content name)
    (huse : ¬ ∃ name, UsesSymbol content name) : Line r content content

/-- A program and the same program with its symbols renamed, on whatever lines. -/
def Program.Renamed (r : Renaming) (p q : Program) : Prop :=
  List.Forall₂ (fun st su => r.Line st.content su.content) p q

/-! ## Lists side by side -/

section Forall₂

variable {α β : Type} {R : α → β → Prop}

@[elab_as_elim]
theorem forall₂_concatInduction {motive : List α → List β → Prop} {l : List α} {m : List β}
    (h : List.Forall₂ R l m) (nil : motive [] [])
    (concat : ∀ l m x y, List.Forall₂ R l m → R x y → motive l m →
      motive (l ++ [x]) (m ++ [y])) : motive l m := by
  have hreverse : ∀ {k : List α} {n : List β}, List.Forall₂ R k n →
      motive k.reverse n.reverse := by
    intro k n hkn
    induction hkn with
    | nil => exact nil
    | cons hxy hrest ih =>
      rw [List.reverse_cons, List.reverse_cons]
      exact concat _ _ _ _ (List.forall₂_reverse_iff.2 hrest) hxy ih
  have hl := hreverse (List.forall₂_reverse_iff.2 h)
  rwa [List.reverse_reverse, List.reverse_reverse] at hl

end Forall₂

/-! ## Lines -/

namespace Renaming.Line

variable {r : Renaming} {c d : Bytes}

theorem declaredLabel? (h : r.Line c d) :
    HackAssembly.declaredLabel? d = (HackAssembly.declaredLabel? c).map r.map := by
  cases h with
  | declaration h =>
    rw [declaredLabel?_eq_some.2 ⟨h, rfl⟩, declaredLabel?_eq_some.2 ⟨r.symbol _ h, rfl⟩]
    rfl
  | symbol h => rfl
  | other hlabel huse =>
    rw [declaredLabel?_eq_none_iff.2 hlabel]
    rfl

theorem usedName? (h : r.Line c d) :
    HackAssembly.usedName? d = (HackAssembly.usedName? c).map r.map := by
  cases h with
  | declaration h => rfl
  | symbol h =>
    rw [usedName?_eq_some.2 ⟨h, rfl⟩, usedName?_eq_some.2 ⟨r.symbol _ h, rfl⟩]
    rfl
  | other hlabel huse =>
    rw [usedName?_eq_none_iff.2 huse]
    rfl

theorem ofContent (h : r.Line c d) : Kind.ofContent d = Kind.ofContent c := by
  cases h with
  | declaration h => rfl
  | symbol h =>
    rw [ofContent_eq_symbol.2 ⟨_, h, rfl⟩, ofContent_eq_symbol.2 ⟨_, r.symbol _ h, rfl⟩]
  | other hlabel huse => rfl

theorem opensLabel (h : r.Line c d) : HackAssembly.opensLabel d = HackAssembly.opensLabel c := by
  cases h <;> rfl

theorem opensAddress (h : r.Line c d) :
    HackAssembly.opensAddress d = HackAssembly.opensAddress c := by
  cases h <;> rfl

/-- Constants and computations are left as they are. -/
theorem eq_of_plain (h : r.Line c d) (hlabel : HackAssembly.declaredLabel? c = none)
    (hkind : Kind.ofContent c ≠ .symbol) : d = c := by
  cases h with
  | declaration h =>
    rw [declaredLabel?_eq_some.2 ⟨h, rfl⟩] at hlabel
    simp at hlabel
  | symbol h => exact absurd (ofContent_eq_symbol.2 ⟨_, h, rfl⟩) hkind
  | other => rfl

end Renaming.Line

def Renaming.rename (r : Renaming) (content : Bytes) : Bytes :=
  match declaredLabel? content, usedName? content with
  | some name, _ => Byte.openParen :: (r.map name ++ [Byte.closeParen])
  | none, some name => Byte.atSign :: r.map name
  | none, none => content

theorem Renaming.line_iff {r : Renaming} {c d : Bytes} : r.Line c d ↔ d = r.rename c := by
  constructor
  · intro h
    rw [rename]
    cases h with
    | declaration h => rw [declaredLabel?_eq_some.2 ⟨h, rfl⟩]
    | symbol h => rw [usedName?_eq_some.2 ⟨h, rfl⟩]; rfl
    | other hlabel huse =>
      rw [declaredLabel?_eq_none_iff.2 hlabel, usedName?_eq_none_iff.2 huse]
  · rintro rfl
    cases hlabel : declaredLabel? c with
    | some name =>
      obtain ⟨hsymbol, rfl⟩ := declaredLabel?_eq_some.1 hlabel
      rw [rename, hlabel]
      exact .declaration hsymbol
    | none =>
      cases huse : usedName? c with
      | some name =>
        obtain ⟨hsymbol, rfl⟩ := usedName?_eq_some.1 huse
        rw [rename, hlabel, huse]
        exact .symbol hsymbol
      | none =>
        rw [rename, hlabel, huse]
        exact .other (declaredLabel?_eq_none_iff.1 hlabel) (usedName?_eq_none_iff.1 huse)

instance (r : Renaming) (c d : Bytes) : Decidable (r.Line c d) :=
  decidable_of_iff _ Renaming.line_iff.symm

/-! ## Names -/

theorem contains_predefined {name : Bytes} :
    SymbolTable.predefined.contains name = true ↔
      ∃ entry ∈ SymbolTable.predefinedEntries, entry.1 = name := by
  constructor
  · intro h
    rw [SymbolTable.contains_eq_isSome, Option.isSome_iff_exists] at h
    obtain ⟨address, haddress⟩ := h
    exact ⟨_, mem_predefinedEntries haddress, rfl⟩
  · rintro ⟨entry, hentry, rfl⟩
    exact (Assembler.Sound.fresh .strict).predefined entry hentry

namespace Renaming

variable {r : Renaming}

theorem map_eq_map_iff {name other : Bytes} (hname : Symbol.isSymbol name = true)
    (hother : Symbol.isSymbol other = true) : r.map name = r.map other ↔ name = other :=
  ⟨r.injective name other hname hother, congrArg r.map⟩

theorem mem_map_iff {names : List Bytes} (hsymbols : ∀ name ∈ names, Symbol.isSymbol name = true)
    {name : Bytes} (hname : Symbol.isSymbol name = true) :
    r.map name ∈ names.map r.map ↔ name ∈ names := by
  rw [List.mem_map]
  constructor
  · rintro ⟨other, hother, hsame⟩
    rwa [← r.injective other name (hsymbols other hother) hname hsame]
  · exact fun hin => ⟨name, hin, rfl⟩

/-- A new name is predefined only when it is the old one. -/
theorem predefined_address? {name : Bytes} (hname : Symbol.isSymbol name = true) :
    SymbolTable.predefined.address? (r.map name) = SymbolTable.predefined.address? name := by
  by_cases hfixed : r.map name = name
  · rw [hfixed]
  · have hold : SymbolTable.predefined.contains name = false := by
      rw [← Bool.not_eq_true, contains_predefined]
      rintro ⟨entry, hentry, rfl⟩
      exact hfixed (r.fixes entry hentry)
    have hnew : SymbolTable.predefined.contains (r.map name) = false := by
      rw [← Bool.not_eq_true, contains_predefined]
      rintro ⟨entry, hentry, hsame⟩
      -- a predefined name is already its own new name, and no other name can get it
      have hagain := r.fixes entry hentry
      rw [hsame] at hagain
      exact hfixed (r.injective _ _ (r.symbol name hname) hname hagain)
    rw [SymbolTable.contains_eq_isSome, Option.isSome_eq_false_iff, Option.isNone_iff_eq_none]
      at hold hnew
    rw [hold, hnew]

/-- The names in a list are counted alike. -/
theorem card_unknowns_map {known known' : Bytes → Bool} {names : List Bytes}
    (hsymbols : ∀ name ∈ names, Symbol.isSymbol name = true)
    (hknown : ∀ name, Symbol.isSymbol name = true → known' (r.map name) = known name) :
    (unknowns known' (names.map r.map)).card = (unknowns known names).card := by
  have himage : unknowns known' (names.map r.map) = (unknowns known names).image r.map := by
    ext other
    rw [mem_unknowns, List.mem_map, Finset.mem_image]
    constructor
    · rintro ⟨⟨name, hname, rfl⟩, hunknown⟩
      rw [hknown name (hsymbols name hname)] at hunknown
      exact ⟨name, mem_unknowns.2 ⟨hname, hunknown⟩, rfl⟩
    · rintro ⟨name, hname, rfl⟩
      obtain ⟨hmem, hunknown⟩ := mem_unknowns.1 hname
      exact ⟨⟨name, hmem, rfl⟩, by rw [hknown name (hsymbols name hmem), hunknown]⟩
  rw [himage, Finset.card_image_of_injOn]
  intro name hname other hother
  exact r.injective name other (hsymbols name (mem_unknowns.1 hname).1)
    (hsymbols other (mem_unknowns.1 hother).1)

theorem takeWhile_map {names : List Bytes}
    (hsymbols : ∀ name ∈ names, Symbol.isSymbol name = true) {name : Bytes}
    (hname : Symbol.isSymbol name = true) :
    (names.map r.map).takeWhile (· != r.map name) = (names.takeWhile (· != name)).map r.map := by
  induction names with
  | nil => rfl
  | cons other names ih =>
    have hother := hsymbols other List.mem_cons_self
    have htest : (r.map other != r.map name) = (other != name) := by
      rw [Bool.eq_iff_iff, bne_iff_ne, bne_iff_ne, ne_eq, map_eq_map_iff hother hname]
    rw [List.map_cons, List.takeWhile_cons, List.takeWhile_cons, htest,
      ih fun x hx => hsymbols x (List.mem_cons_of_mem other hx)]
    split <;> rfl

end Renaming

/-! ## Programs -/

namespace Program

theorem isSymbol_of_mem_usedNames {l : List Statement} :
    ∀ name ∈ usedNames l, Symbol.isSymbol name = true := by
  intro name hname
  obtain ⟨st, -, huse⟩ := mem_usedNames.1 hname
  exact huse.1

namespace Renamed

variable {r : Renaming} {p q : Program}

theorem instructions (h : Renamed r p q) : Renamed r p.instructions q.instructions := by
  induction h with
  | nil => exact .nil
  | @cons st su p q hline _ ih =>
    have hlabel : su.label?.isNone = st.label?.isNone := by
      rw [Statement.label?, Statement.label?, hline.declaredLabel?, Option.isNone_map]
    rw [Program.instructions, Program.instructions, List.filter_cons, List.filter_cons, hlabel]
    split
    · exact .cons hline ih
    · exact ih

theorem length_instructions (h : Renamed r p q) :
    q.instructions.length = p.instructions.length := h.instructions.length_eq.symm

/-- Instructions that are treated alike one by one are treated alike in all. -/
theorem map_instructions {γ : Type} {f g : Statement → γ} (h : Renamed r p q)
    (hfg : ∀ st su : Statement, st.label? = none → r.Line st.content su.content → g su = f st) :
    q.instructions.map g = p.instructions.map f := by
  have hlabels : ∀ st ∈ p.instructions, st.label? = none :=
    fun st hst => Option.isNone_iff_eq_none.1 (List.mem_filter.1 hst).2
  have hboth := (List.forall₂_and_left _ _).2 ⟨hlabels, h.instructions⟩
  rw [eq_comm, ← List.forall₂_eq_eq_eq, List.forall₂_map_left_iff, List.forall₂_map_right_iff]
  exact hboth.imp fun st su hst => (hfg st su hst.1 hst.2).symm

theorem label?_eq {st su : Statement} (h : r.Line st.content su.content) {name : Bytes}
    (hname : Symbol.isSymbol name = true) :
    su.label? = some (r.map name) ↔ st.label? = some name := by
  rw [Statement.label?, h.declaredLabel?, Option.map_eq_some_iff, Statement.label?]
  constructor
  · rintro ⟨other, hother, hsame⟩
    have hsymbol := (declaredLabel?_eq_some.1 hother).1
    rwa [Renaming.map_eq_map_iff hsymbol hname |>.1 hsame] at hother
  · exact fun hst => ⟨name, hst, rfl⟩

theorem labelAddress? (h : Renamed r p q) {name : Bytes} (hname : Symbol.isSymbol name = true) :
    q.labelAddress? (r.map name) = p.labelAddress? name := by
  refine forall₂_concatInduction h rfl ?_
  intro p q st su hpq hline ih
  rw [labelAddress?_concat, labelAddress?_concat, ih, length_instructions hpq]
  exact if_congr (label?_eq hline hname) rfl rfl

theorem isKnown (h : Renamed r p q) {name : Bytes} (hname : Symbol.isSymbol name = true) :
    q.isKnown (r.map name) = p.isKnown name := by
  rw [Program.isKnown, Program.isKnown, h.labelAddress? hname, SymbolTable.contains_eq_isSome,
    SymbolTable.contains_eq_isSome, Renaming.predefined_address? hname]

theorem usedNames (h : Renamed r p q) :
    HackAssembly.usedNames q = (HackAssembly.usedNames p).map r.map := by
  induction h with
  | nil => rfl
  | @cons st su p q hline _ ih =>
    simp only [HackAssembly.usedNames, List.filterMap_cons, hline.usedName?] at ih ⊢
    rw [ih]
    cases HackAssembly.usedName? st.content <;> rfl

theorem uses (h : Renamed r p q) : q.uses = p.uses.map r.map := h.instructions.usedNames

theorem card_unknowns (h : Renamed r p q) :
    (unknowns q.isKnown q.uses).card = (unknowns p.isKnown p.uses).card := by
  rw [h.uses]
  exact Renaming.card_unknowns_map isSymbol_of_mem_usedNames fun name hname => h.isKnown hname

/-- **A name and its new name stand for the same address.** -/
theorem address (h : Renamed r p q) {name : Bytes} (hname : Symbol.isSymbol name = true) :
    q.address (r.map name) = p.address name := by
  have hsymbols : ∀ other ∈ p.uses, Symbol.isSymbol other = true := isSymbol_of_mem_usedNames
  have hordinal : q.variableOrdinal (r.map name) = p.variableOrdinal name := by
    rw [variableOrdinal, ordinal, h.uses, Renaming.takeWhile_map hsymbols hname, variableOrdinal,
      ordinal]
    refine Renaming.card_unknowns_map (fun other hother => ?_) fun other hother => h.isKnown hother
    exact hsymbols other ((List.takeWhile_sublist _).subset hother)
  rw [Program.address, Program.address, h.labelAddress? hname, Renaming.predefined_address? hname,
    hordinal]

/-- An instruction means the same in both programs. -/
theorem digits (h : Renamed r p q) {c d : Bytes} (hline : r.Line c d)
    (hlabel : declaredLabel? c = none) : q.digits d = p.digits c := by
  cases hkind : Kind.ofContent c with
  | symbol =>
    obtain ⟨name, huse⟩ := ofContent_eq_symbol.1 hkind
    have hname : c.drop 1 = name := by rw [huse.2]; rfl
    have hnew : d.drop 1 = r.map name := by
      have hused := hline.usedName?
      rw [usedName?_eq_some.2 huse] at hused
      rw [(usedName?_eq_some.1 hused).2]
      rfl
    rw [Program.digits, Program.digits, hline.ofContent, hkind]
    dsimp only
    rw [hname, hnew, h.address huse.1]
  | constant =>
    rw [hline.eq_of_plain hlabel (by rw [hkind]; decide), Program.digits, Program.digits, hkind]
  | computation =>
    rw [hline.eq_of_plain hlabel (by rw [hkind]; decide), Program.digits, Program.digits, hkind]

/-- What the table of the one program binds, the other binds under the new name. -/
theorem bound_iff (h : Renamed r p q) {name : Bytes} (hname : Symbol.isSymbol name = true) :
    (q.isKnown (r.map name) || q.uses.contains (r.map name))
      = (p.isKnown name || p.uses.contains name) := by
  have hused : r.map name ∈ q.uses ↔ name ∈ p.uses := by
    rw [h.uses]
    exact Renaming.mem_map_iff isSymbol_of_mem_usedNames hname
  rw [h.isKnown hname, List.contains_eq_mem, List.contains_eq_mem, decide_eq_decide.2 hused]

theorem exists_of_labelAddress? (h : Renamed r p q) {name : Bytes} {n : Nat}
    (hn : q.labelAddress? name = some n) :
    ∃ old, Symbol.isSymbol old = true ∧ r.map old = name := by
  revert hn
  refine forall₂_concatInduction h (fun hn => ?_) fun p q st su hpq hline ih hn => ?_
  · simp [Program.labelAddress?, upToLabel] at hn
  · rw [labelAddress?_concat] at hn
    split at hn
    · next hlabel =>
      rw [Statement.label?, hline.declaredLabel?, Option.map_eq_some_iff] at hlabel
      obtain ⟨old, hold, hnew⟩ := hlabel
      exact ⟨old, (declaredLabel?_eq_some.1 hold).1, hnew⟩
    · exact ih hn

/-- All that is bound in the second program is bound under a new name. -/
theorem exists_of_bound (h : Renamed r p q) {name : Bytes}
    (hbound : (q.isKnown name || q.uses.contains name) = true) :
    ∃ old, Symbol.isSymbol old = true ∧ r.map old = name := by
  rw [Program.isKnown, Bool.or_eq_true, Bool.or_eq_true] at hbound
  rcases hbound with (hlabel | hpredefined) | hused
  · obtain ⟨n, hn⟩ := Option.isSome_iff_exists.1 hlabel
    exact h.exists_of_labelAddress? hn
  · obtain ⟨entry, hentry, rfl⟩ := contains_predefined.1 hpredefined
    exact ⟨entry.1, (Assembler.Sound.fresh .strict).symbols _ hpredefined, r.fixes entry hentry⟩
  · rw [h.uses, List.contains_eq_mem, decide_eq_true_iff, List.mem_map] at hused
    obtain ⟨old, hold, hnew⟩ := hused
    exact ⟨old, isSymbol_of_mem_usedNames old hold, hnew⟩

/-! ## Problems -/

theorem gatherProblems (h : Renamed r p q) {st su : Statement}
    (hline : r.Line st.content su.content) :
    Program.gatherProblems q su = Program.gatherProblems p st := by
  rw [Program.gatherProblems, Program.gatherProblems, Statement.label?, hline.declaredLabel?,
    hline.opensLabel, h.length_instructions, Statement.label?]
  cases HackAssembly.declaredLabel? st.content <;> rfl

theorem resolveProblems {known known' : Bytes → Bool}
    (hknown : ∀ name, Symbol.isSymbol name = true → known' (r.map name) = known name)
    (h : Renamed r p q) {st su : Statement} (hline : r.Line st.content su.content) :
    Program.resolveProblems known' q su = Program.resolveProblems known p st := by
  rw [Program.resolveProblems, Program.resolveProblems, hline.usedName?, hline.opensAddress,
    hline.ofContent]
  cases hname : HackAssembly.usedName? st.content with
  | none => rfl
  | some name =>
    have hsymbol := (usedName?_eq_some.1 hname).1
    have hsymbols : ∀ other ∈ HackAssembly.usedNames p, Symbol.isSymbol other = true :=
      isSymbol_of_mem_usedNames
    rw [Option.map_some]
    dsimp only
    rw [hknown name hsymbol, h.usedNames, List.contains_eq_mem, List.contains_eq_mem,
      decide_eq_decide.2 (Renaming.mem_map_iff hsymbols hsymbol),
      Renaming.card_unknowns_map hsymbols hknown]

theorem encodeProblems {st su : Statement} (hline : r.Line st.content su.content)
    (hlabel : st.label? = none) : Program.encodeProblems su = Program.encodeProblems st := by
  by_cases hkind : Kind.ofContent st.content = .symbol
  · rw [Program.encodeProblems, Program.encodeProblems, hline.ofContent, hkind]
  · rw [Program.encodeProblems, Program.encodeProblems, hline.eq_of_plain hlabel hkind]

theorem along_eq {β : Type} {f g : List Statement → Statement → List β}
    (hfg : ∀ p q st su, Renamed r p q → r.Line st.content su.content → g q su = f p st)
    (h : Renamed r p q) : along g q = along f p := by
  refine forall₂_concatInduction h rfl ?_
  intro p q st su hpq hline ih
  rw [along_concat, along_concat, ih, hfg p q st su hpq hline]

theorem map_problem_along (f : List Statement → Statement → List Problem) (l : List Statement) :
    (along (fun earlier st => (f earlier st).map st.diagnostic) l).map Diagnostic.problem
      = along f l := by
  rw [along, List.map_flatMap, along]
  apply List.flatMap_congr
  rintro ⟨st, i⟩ -
  simp [Function.comp_def, Statement.diagnostic]

/-- **The passes have the same problems** with both programs, one after the other. -/
theorem problems (h : Renamed r p q) :
    (q.gatherDiagnostics ++ q.resolveDiagnostics ++ q.encodeDiagnostics).map Diagnostic.problem
      = (p.gatherDiagnostics ++ p.resolveDiagnostics ++ p.encodeDiagnostics).map
        Diagnostic.problem := by
  have hgather : q.gatherDiagnostics.map Diagnostic.problem
      = p.gatherDiagnostics.map Diagnostic.problem := by
    rw [gatherDiagnostics, gatherDiagnostics, map_problem_along, map_problem_along]
    exact along_eq (fun _ _ _ _ hpq hline => hpq.gatherProblems hline) h
  have hresolve : q.resolveDiagnostics.map Diagnostic.problem
      = p.resolveDiagnostics.map Diagnostic.problem := by
    rw [resolveDiagnostics, resolveDiagnostics, map_problem_along, map_problem_along]
    exact along_eq (fun _ _ _ _ hpq hline => hpq.resolveProblems (fun _ => h.isKnown) hline)
      h.instructions
  have hencode : q.encodeDiagnostics.map Diagnostic.problem
      = p.encodeDiagnostics.map Diagnostic.problem := by
    rw [encodeDiagnostics, encodeDiagnostics, List.map_flatMap, List.map_flatMap]
    simp only [List.map_map, Function.comp_def, Statement.diagnostic, List.map_id']
    rw [List.flatMap_def, List.flatMap_def]
    refine congrArg List.flatten (h.map_instructions fun st su hlabel hline => ?_)
    exact encodeProblems hline hlabel
  rw [List.map_append, List.map_append, List.map_append, List.map_append, hgather, hresolve,
    hencode]

end Renamed

end Program

/-! ## Runs -/

/-- Both tables hold the same addresses, a name and its new name the same one. -/
theorem Program.Renamed.table_iff {r : Renaming} {p q : Program} (h : p.Renamed r q)
    {a b : Assembler} (ha : Assembled p a) (hb : Assembled q b) (hsound : a.Sound .lenient)
    (name : Bytes) (address : Address) :
    b.table.address? name = some address ↔
      ∃ old, r.map old = name ∧ a.table.address? old = some address := by
  have hsame : ∀ old, Symbol.isSymbol old = true →
      b.table.address? (r.map old) = a.table.address? old := by
    intro old hold
    rw [ha.table, hb.table, h.bound_iff hold, h.address hold]
  constructor
  · intro hname
    have hbound : (q.isKnown name || q.uses.contains name) = true := by
      by_contra hfree
      rw [hb.table, if_neg hfree] at hname
      simp at hname
    obtain ⟨old, hold, rfl⟩ := h.exists_of_bound hbound
    exact ⟨old, rfl, hsame old hold ▸ hname⟩
  · rintro ⟨old, rfl, hold⟩
    -- the renaming is only tame on symbols, and the table holds no other names
    have hsymbol := hsound.symbols old (by rw [SymbolTable.contains_eq_isSome, hold]; rfl)
    rw [hsame old hsymbol, hold]

/-- **Renaming symbols does not change the words.**  When the lines of one text are those of another
with their symbols renamed, lenient runs over both give the same words, kinds and counters, and
their tables differ by the renaming alone; and strict mode takes both or neither. -/
theorem renamed_program_assembles_alike (r : Renaming) (s s' : Bytes)
    (h : (ofText s).Renamed r (ofText s')) (a₀ a₀' b₀ b₀' : Assembler)
    (ha₀ : a₀.mode = .lenient) (ha₀' : a₀'.mode = .lenient)
    (hb₀ : b₀.mode = .strict) (hb₀' : b₀'.mode = .strict) :
    (∃ a a', (assemble { bytes := s, failure := none }).run a₀ = .ok () a ∧
      (assemble { bytes := s', failure := none }).run a₀' = .ok () a' ∧
      a'.codes = a.codes ∧
      a'.commands.toList.map Command.kind = a.commands.toList.map Command.kind ∧
      a'.nextInstruction = a.nextInstruction ∧ a'.nextVariable = a.nextVariable ∧
      ∀ name address, a'.table.address? name = some address ↔
        ∃ old, r.map old = name ∧ a.table.address? old = some address) ∧
    ((∃ b, (assemble { bytes := s', failure := none }).run b₀' = .ok () b) ↔
      ∃ b, (assemble { bytes := s, failure := none }).run b₀ = .ok () b) := by
  constructor
  · obtain ⟨a, hrun, -, ha⟩ := run_assemble s ha₀
    obtain ⟨a', hrun', -, ha'⟩ := run_assemble s' ha₀'
    have hsound := sound_of_run hrun
    have hsound' := sound_of_run hrun'
    rw [ha₀] at hsound
    refine ⟨a, a', hrun, hrun', ?_, ?_, ?_, ?_, h.table_iff ha ha' hsound⟩
    · rw [ha.codes, ha'.codes]
      exact h.map_instructions fun _ _ hlabel hline => h.digits hline hlabel
    · rw [ha.commands, ha'.commands, List.map_map, List.map_map]
      exact h.map_instructions fun _ _ _ hline => hline.ofContent
    · rw [hsound.counter, hsound'.counter, ← Array.length_toList, ← Array.length_toList,
        ha.commands, ha'.commands, List.length_map, List.length_map, h.length_instructions]
    · rw [ha.nextVariable, ha'.nextVariable, h.card_unknowns]
  · have hproblems := congrArg (· = []) h.problems
    simp only [List.map_eq_nil_iff, List.append_eq_nil_iff, and_assoc] at hproblems
    rw [strict_run_ok_iff s hb₀, strict_run_ok_iff s' hb₀', hproblems]

def Renaming.exchange (x y : Bytes) (hx : Symbol.isSymbol x = true) (hy : Symbol.isSymbol y = true)
    (hfree : ∀ entry ∈ SymbolTable.predefinedEntries, entry.1 ≠ x ∧ entry.1 ≠ y) : Renaming where
  map := Equiv.swap x y
  symbol := by
    intro name hname
    rw [Equiv.swap_apply_def]
    split
    · exact hy
    · split
      · exact hx
      · exact hname
  injective := fun _ _ _ _ h => (Equiv.swap x y).injective h
  fixes := fun entry hentry =>
    Equiv.swap_apply_of_ne_of_ne (hfree entry hentry).1 (hfree entry hentry).2

/-- A label and a variable exchange their names, in another layout and beside a predefined name. -/
theorem renamed_program_assembles_alike_exchange :
    ∃ r : Renaming, r.map (ascii "i") = ascii "LOOP" ∧ r.map (ascii "LOOP") = ascii "i" ∧
      (ofText (ascii "(LOOP)\n@i\nM=1\n@SP\n@LOOP\n0;JMP")).Renamed r
        (ofText (ascii "// i\n(i)\r\n@LOOP\nM = 1\n@SP\n\n@i\n0;JMP\n")) ∧
      (∃ a a', (assemble ⟨ascii "(LOOP)\n@i\nM=1\n@SP\n@LOOP\n0;JMP", none⟩).run
          (.fresh .lenient) = .ok () a ∧
        (assemble ⟨ascii "// i\n(i)\r\n@LOOP\nM = 1\n@SP\n\n@i\n0;JMP\n", none⟩).run
          (.fresh .lenient) = .ok () a' ∧ a'.codes = a.codes ∧
        ∀ address, a'.table.address? (ascii "LOOP") = some address ↔
          a.table.address? (ascii "i") = some address) := by
  let r := Renaming.exchange (ascii "i") (ascii "LOOP") (by decide) (by decide)
    (by decide +kernel)
  have hi : r.map (ascii "i") = ascii "LOOP" := Equiv.swap_apply_left _ _
  have hloop : r.map (ascii "LOOP") = ascii "i" := Equiv.swap_apply_right _ _
  have hrenamed : (ofText (ascii "(LOOP)\n@i\nM=1\n@SP\n@LOOP\n0;JMP")).Renamed r
      (ofText (ascii "// i\n(i)\r\n@LOOP\nM = 1\n@SP\n\n@i\n0;JMP\n")) := by
    rw [Program.Renamed]
    decide +kernel
  obtain ⟨⟨a, a', hrun, hrun', hcodes, -, -, -, htable⟩, -⟩ := renamed_program_assembles_alike r _ _
    hrenamed (.fresh .lenient) (.fresh .lenient) (.fresh .strict) (.fresh .strict) rfl rfl rfl rfl
  refine ⟨r, hi, hloop, hrenamed, a, a', hrun, hrun', hcodes, fun address => ?_⟩
  rw [htable]
  constructor
  · rintro ⟨old, hold, haddress⟩
    rwa [← (Equiv.swap (ascii "i") (ascii "LOOP")).injective (hold.trans hi.symm)]
  · exact fun haddress => ⟨_, hi, haddress⟩

end HackAssembly
