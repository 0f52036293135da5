import HackAssembly.Proofs.Appending
import HackAssembly.Proofs.Reports
import Mathlib.Data.Nat.ModEq

/-!
# Addresses of variables

Variables get addresses in the order of their first use, from 16 on.  Two of them can share an
address only because addresses are cut to fifteen bits, so only when one of them comes 32768
variables behind the other, and that one is reported: there is no address left for it.

`firstUses` lists the names of a list that are not known in the order in which they occur first.  A
name stands in it at the place that its ordinal says (`ordinal_firstUses`), so that distinct
variables have distinct ordinals, and the ordinals of all variables are the numbers below their
count.  The rest is arithmetic: an address is 16 and an ordinal, modulo 32768.

In strict mode nothing is reported, so that all of this holds without the modulus
(`variables_do_not_alias`).  The same goes for labels.
-/

namespace HackAssembly

open Assembly

namespace Program

/-! ## The order of first use -/

/-- The names in a list that are not known, each once, in the order in which they occur first. -/
def firstUses (known : Bytes → Bool) (names : List Bytes) : List Bytes :=
  (names.filter fun name => !known name).eraseDups

variable {known : Bytes → Bool} {names : List Bytes}

theorem mem_firstUses {name : Bytes} :
    name ∈ firstUses known names ↔ name ∈ names ∧ known name = false := by
  simp [firstUses, List.mem_eraseDups]

/-- A name is added at the end, where it is used first. -/
theorem firstUses_concat (known : Bytes → Bool) (names : List Bytes) (name : Bytes) :
    firstUses known (names ++ [name])
      = firstUses known names ++ if known name || names.contains name then [] else [name] := by
  rw [firstUses, List.filter_append, List.eraseDups_append, ← firstUses]
  congr 1
  cases hknown : known name with
  | true => simp [hknown, List.removeAll]
  | false =>
    by_cases hmem : name ∈ names
    · simp [hknown, hmem, List.removeAll]
    · simp [hknown, hmem, List.removeAll, List.eraseDups_cons]

/-- The names are in the order in which they occur first. -/
theorem pairwise_firstUses (known : Bytes → Bool) (names : List Bytes) :
    (firstUses known names).Pairwise fun x y => names.idxOf x < names.idxOf y := by
  induction names using List.reverseRecOn with
  | nil => exact List.Pairwise.nil
  | append_singleton names name ih =>
    have hold : (firstUses known names).Pairwise fun x y =>
        (names ++ [name]).idxOf x < (names ++ [name]).idxOf y := by
      refine ih.imp_of_mem fun hx hy hlt => ?_
      rwa [List.idxOf_append_of_mem (mem_firstUses.1 hx).1,
        List.idxOf_append_of_mem (mem_firstUses.1 hy).1]
    rw [firstUses_concat]
    split
    · rwa [List.append_nil]
    · next hnew =>
      have hunused : name ∉ names := by
        intro hmem
        exact hnew (by simp [hmem])
      refine List.pairwise_append.2 ⟨hold, List.pairwise_singleton _ _, fun x hx y hy => ?_⟩
      rw [List.mem_singleton.1 hy, List.idxOf_append_of_mem (mem_firstUses.1 hx).1,
        List.idxOf_append_of_notMem hunused]
      have hlt := List.idxOf_lt_length_of_mem (mem_firstUses.1 hx).1
      omega

theorem nodup_firstUses (known : Bytes → Bool) (names : List Bytes) :
    (firstUses known names).Nodup := by
  refine (pairwise_firstUses known names).imp ?_
  rintro x y hlt rfl
  exact absurd hlt (Nat.lt_irrefl _)

theorem length_firstUses (known : Bytes → Bool) (names : List Bytes) :
    (firstUses known names).length = (unknowns known names).card := by
  have hsame : unknowns known names = (firstUses known names).toFinset := by
    ext name
    rw [mem_unknowns, List.mem_toFinset, mem_firstUses]
  rw [hsame, List.toFinset_card_of_nodup (nodup_firstUses known names)]

/-- **The place of a name is its ordinal.** -/
theorem ordinal_firstUses (known : Bytes → Bool) (names : List Bytes) :
    (firstUses known names).map (ordinal known names)
      = List.range (firstUses known names).length := by
  induction names using List.reverseRecOn with
  | nil => rfl
  | append_singleton names name ih =>
    have hold : (firstUses known names).map (ordinal known (names ++ [name]))
        = List.range (firstUses known names).length := by
      rw [← ih]
      refine List.map_congr_left fun x hx => ?_
      exact ordinal_append_of_mem (mem_firstUses.1 hx).1 [name]
    rw [firstUses_concat]
    split
    · rwa [List.append_nil]
    · next hnew =>
      have hunused : name ∉ names := by
        intro hmem
        exact hnew (by simp [hmem])
      rw [List.map_append, hold, List.map_singleton, ordinal_concat_self hunused,
        ← length_firstUses, List.length_append, List.length_singleton, List.range_succ]

theorem ordinal_injective {x y : Bytes} (hx : x ∈ firstUses known names)
    (hy : y ∈ firstUses known names) (h : ordinal known names x = ordinal known names y) :
    x = y := by
  have hnodup : ((firstUses known names).map (ordinal known names)).Nodup := by
    rw [ordinal_firstUses]
    exact List.nodup_range
  exact List.inj_on_of_nodup_map hnodup hx hy h

/-! ## Variables of a program -/

variable {p : Program}

/-- A list of the variables of a program, in the order of their first use. -/
structure ListsVariables (p : Program) (names : List Bytes) : Prop where
  mem_iff : ∀ name, name ∈ names ↔ p.IsVariable name
  ordered : names.Pairwise fun x y => p.uses.idxOf x < p.uses.idxOf y

theorem mem_firstUses_uses {name : Bytes} :
    name ∈ firstUses p.isKnown p.uses ↔ p.IsVariable name := by
  rw [mem_firstUses, ← mem_unknowns, mem_unknowns_uses]

theorem listsVariables_firstUses (p : Program) :
    p.ListsVariables (firstUses p.isKnown p.uses) :=
  ⟨fun _ => mem_firstUses_uses, pairwise_firstUses p.isKnown p.uses⟩

theorem variableOrdinal_injective {x y : Bytes} (hx : p.IsVariable x) (hy : p.IsVariable y)
    (h : p.variableOrdinal x = p.variableOrdinal y) : x = y :=
  ordinal_injective (mem_firstUses_uses.2 hx) (mem_firstUses_uses.2 hy) h

theorem address_of_isVariable {name : Bytes} (h : p.IsVariable name) :
    p.address name = firstVariable + p.variableOrdinal name := by
  have hlabel : p.labelAddress? name = none := labelAddress?_eq_none.2 h.2.1
  have hpredefined : SymbolTable.predefined.address? name = none := by
    have hcontains := h.2.2
    rwa [SymbolTable.contains_eq_isSome, Option.isSome_eq_false_iff, Option.isNone_iff_eq_none]
      at hcontains
  rw [address, hlabel, hpredefined]

/-- The last declaration of a label says where it is. -/
theorem labelAddress?_of_last {before after : Program} {st : Statement} {name : Bytes}
    (h : Declares st.content name) (hlast : ∀ later ∈ after, ¬ Declares later.content name) :
    labelAddress? (before ++ st :: after) name = some (instructions before).length := by
  have hlabel : st.label? = some name := declaredLabel?_eq_some.2 h
  have hsplit : before ++ st :: after = (before ++ [st]) ++ after := by simp
  rw [hsplit, labelAddress?_append hlast, labelAddress?_concat, if_pos hlabel]

theorem exists_firstUse {l : List Statement} {name : Bytes} (h : name ∈ usedNames l) :
    ∃ earlier st later, l = earlier ++ st :: later ∧ usedName? st.content = some name ∧
      name ∉ usedNames earlier := by
  induction l using List.reverseRecOn with
  | nil => cases h
  | append_singleton l st ih =>
    by_cases hold : name ∈ usedNames l
    · obtain ⟨earlier, su, later, hl, hname, hnew⟩ := ih hold
      exact ⟨earlier, su, later ++ [st], by rw [hl]; simp, hname, hnew⟩
    · rw [usedNames_concat, List.mem_append] at h
      have hst : usedName? st.content = some name := by simpa using h.resolve_left hold
      exact ⟨l, st, [], rfl, hst, hold⟩

theorem mem_along {α β : Type} {f : List α → α → List β} {l earlier later : List α} {x : α}
    (h : l = earlier ++ x :: later) {y : β} (hy : y ∈ f earlier x) : y ∈ along f l := by
  rw [along, List.mem_flatMap]
  refine ⟨(x, earlier.length), ?_, ?_⟩
  · rw [List.mem_zipIdx_iff_getElem?, h]
    simp
  · have htake : l.take earlier.length = earlier := by rw [h, List.take_left]
    dsimp only
    rwa [htake]

/-- A variable is reported where it is first used, as one that no address is left for. -/
def FirstUseReported (p : Program) (ds : List Diagnostic) (name : Bytes) : Prop :=
  ∃ earlier st later, p.instructions = earlier ++ st :: later ∧ UsesSymbol st.content name ∧
    (∀ su ∈ earlier, ¬ UsesSymbol su.content name) ∧
    st.report "address larger than 32767" ∈ ds.map Diagnostic.report

/-- A variable behind too many others is reported. -/
theorem firstUseReported_of_le {name : Bytes} (h : p.IsVariable name)
    (hlarge : 32752 ≤ p.variableOrdinal name) : p.FirstUseReported p.resolveDiagnostics name := by
  obtain ⟨hused, hknown⟩ := mem_firstUses.1 (mem_firstUses_uses.2 h)
  obtain ⟨earlier, st, later, hsplit, hname, hnew⟩ := exists_firstUse hused
  refine ⟨earlier, st, later, hsplit, usedName?_eq_some.1 hname, fun su hsu huse => ?_, ?_⟩
  · exact hnew (mem_usedNames.2 ⟨su, hsu, huse⟩)
  · rw [variableOrdinal_of_first hsplit hname hnew] at hlarge
    refine List.mem_map.2 ⟨st.diagnostic .addressTooLarge, mem_along hsplit ?_, rfl⟩
    rw [resolveProblems_of_use hname, if_pos ⟨hknown, hnew, hlarge⟩]
    exact List.mem_singleton_self _

/-! ## Fifteen bits -/

theorem wrapped_eq_iff {m n : Nat} : wrapped m = wrapped n ↔ m ≡ n [MOD 32768] := by
  rw [← UInt16.toNat_inj, toNat_wrapped, toNat_wrapped, Nat.ModEq]

end Program

open Program

/-! ## Runs -/

namespace Assembled

variable {p : Program} {a : Assembler}

theorem address?_of_isVariable (h : Assembled p a) {name : Bytes} (hname : p.IsVariable name) :
    a.table.address? name = some (wrapped (16 + p.variableOrdinal name)) := by
  have hused : name ∈ p.uses := (mem_firstUses.1 (mem_firstUses_uses.2 hname)).1
  rw [h.table, if_pos (by simp [hused]), address_of_isVariable hname, firstVariable]

theorem address?_of_label (h : Assembled p a) {name : Bytes} {count : Nat}
    (hlabel : p.labelAddress? name = some count) :
    a.table.address? name = some (wrapped count) := by
  rw [h.table, if_pos (by rw [isKnown, hlabel]; rfl), address, hlabel]

/-- **When variables share an address**: one of them comes 32768 variables, or a multiple of that,
behind the other, and then it is reported. -/
theorem address?_eq_iff (h : Assembled p a) {x y : Bytes} (hx : p.IsVariable x)
    (hy : p.IsVariable y) (hne : x ≠ y) :
    (a.table.address? x = a.table.address? y ↔
      p.variableOrdinal x ≡ p.variableOrdinal y [MOD 32768]) ∧
    (a.table.address? x = a.table.address? y →
      p.FirstUseReported a.diagnostics.toList x ∨ p.FirstUseReported a.diagnostics.toList y) := by
  have hiff : a.table.address? x = a.table.address? y ↔
      p.variableOrdinal x ≡ p.variableOrdinal y [MOD 32768] := by
    rw [h.address?_of_isVariable hx, h.address?_of_isVariable hy, Option.some_inj, wrapped_eq_iff]
    exact Nat.ModEq.add_iff_left (Nat.ModEq.refl 16)
  refine ⟨hiff, fun hsame => ?_⟩
  have hmod := hiff.1 hsame
  have hordinals : p.variableOrdinal x ≠ p.variableOrdinal y :=
    fun heq => hne (variableOrdinal_injective hx hy heq)
  have hlarge : 32752 ≤ p.variableOrdinal x ∨ 32752 ≤ p.variableOrdinal y := by
    rw [Nat.ModEq] at hmod
    omega
  have hreported : ∀ {z}, p.IsVariable z → 32752 ≤ p.variableOrdinal z →
      p.FirstUseReported a.diagnostics.toList z := by
    intro z hz hle
    obtain ⟨earlier, st, later, hsplit, huse, hfirst, hmem⟩ := firstUseReported_of_le hz hle
    refine ⟨earlier, st, later, hsplit, huse, hfirst, ?_⟩
    rw [h.diagnostics, List.map_append, List.map_append]
    exact List.mem_append_left _ (List.mem_append_right _ hmem)
  exact hlarge.imp (hreported hx) (hreported hy)

/-- Without a problem the addresses of the variables are those that follow each other from 16. -/
theorem map_address?_firstUses (h : Assembled p a)
    (hroom : (unknowns p.isKnown p.uses).card ≤ 32752) :
    (firstUses p.isKnown p.uses).map (fun name => (a.table.address? name).map UInt16.toNat)
      = (List.range' 16 (firstUses p.isKnown p.uses).length).map some := by
  have hsmall : ∀ name ∈ firstUses p.isKnown p.uses,
      (a.table.address? name).map UInt16.toNat = some (16 + ordinal p.isKnown p.uses name) := by
    intro name hname
    have hlt : ordinal p.isKnown p.uses name < (firstUses p.isKnown p.uses).length := by
      rw [← List.mem_range, ← ordinal_firstUses]
      exact List.mem_map_of_mem hname
    rw [length_firstUses] at hlt
    rw [h.address?_of_isVariable (mem_firstUses_uses.1 hname), Option.map_some, toNat_wrapped,
      variableOrdinal, Nat.mod_eq_of_lt (by omega)]
  rw [List.map_congr_left hsmall, List.range'_eq_map_range, List.map_map, ← ordinal_firstUses,
    List.map_map]
  rfl

end Assembled

/-- **Variables do not share addresses unless it is reported.**  In a strict run that succeeds, the
variables have the addresses from 16 on, in the order of their first use, all of which fit into
fifteen bits, and each label has as its address the number of instructions before its last
declaration.  In a lenient run, two variables share an address exactly when the numbers of variables
before their first uses are congruent modulo 32768, and then one of the two is reported where it is
first used. -/
theorem variables_do_not_alias (s : Bytes) :
    (∀ b₀ b : Assembler, b₀.mode = .strict →
      (assemble { bytes := s, failure := none }).run b₀ = .ok () b →
      (∃ names, (ofText s).ListsVariables names ∧
        names.map (fun name => (b.table.address? name).map UInt16.toNat)
          = (List.range' 16 names.length).map some ∧
        15 + names.length ≤ 32767 ∧ b.nextVariable = 16 + names.length) ∧
      ∀ before st after name, ofText s = before ++ st :: after → Declares st.content name →
        (∀ later ∈ after, ¬ Declares later.content name) →
        (b.table.address? name).map UInt16.toNat = some (instructions before).length) ∧
    ∀ a₀ : Assembler, a₀.mode = .lenient →
      ∃ a, (assemble { bytes := s, failure := none }).run a₀ = .ok () a ∧
        ∀ x y, (ofText s).IsVariable x → (ofText s).IsVariable y → x ≠ y →
          (a.table.address? x = a.table.address? y ↔
            (ofText s).variableOrdinal x ≡ (ofText s).variableOrdinal y [MOD 32768]) ∧
          (a.table.address? x = a.table.address? y →
            (ofText s).FirstUseReported a.diagnostics.toList x ∨
              (ofText s).FirstUseReported a.diagnostics.toList y) := by
  constructor
  · intro b₀ b hmode hrun
    obtain ⟨hgather, hresolve, hencode⟩ := (strict_run_ok_iff s hmode).1 ⟨b, hrun⟩
    have hformed := wellFormed_iff.2 ⟨hgather, hresolve, hencode⟩
    obtain ⟨a, harun, ha⟩ := run_assemble_of_no_problem hgather hresolve hencode hmode
    obtain rfl : a.strictly = b := by simpa [harun] using hrun
    have hroom : (unknowns (ofText s).isKnown (ofText s).uses).card ≤ 32752 :=
      card_unknowns_le_iff.2 hformed.room
    refine ⟨⟨firstUses (ofText s).isKnown (ofText s).uses, listsVariables_firstUses _,
      ha.map_address?_firstUses hroom, ?_, ?_⟩, ?_⟩
    · rw [length_firstUses]
      omega
    · rw [length_firstUses]
      exact ha.nextVariable
    · intro before st after name hsplit hdeclares hlast
      have hlabel : (ofText s).labelAddress? name = some (instructions before).length := by
        rw [hsplit]
        exact labelAddress?_of_last hdeclares hlast
      -- a label behind more instructions would have been a problem
      have hfits : (instructions before).length ≤ 32767 := by
        have hlength : before.length < (ofText s).length := by rw [hsplit]; simp
        have hat : (ofText s)[before.length] = st := by simp [hsplit]
        have hlabels := hformed.labels before.length hlength ⟨name, by rwa [hat]⟩
        rwa [hsplit, List.take_left] at hlabels
      have haddress : a.strictly.table.address? name = some (wrapped _) :=
        ha.address?_of_label hlabel
      rw [haddress, Option.map_some, toNat_wrapped, Nat.mod_eq_of_lt (by omega)]
  · intro a₀ hmode
    obtain ⟨a, hrun, -, ha⟩ := run_assemble s hmode
    exact ⟨a, hrun, fun x y hx hy hne => ha.address?_eq_iff hx hy hne⟩

/-- Two variables, with a predefined name and a label that is declared twice. -/
theorem variables_do_not_alias_interleaved :
    (Assembler.fresh .strict).mode = .strict ∧ (Assembler.fresh .lenient).mode = .lenient ∧
    (∃ b, (assemble ⟨ascii "(L)\n@y\n@L\n@SP\n@x\n(L)\n@y\n", none⟩).run (.fresh .strict)
        = .ok () b ∧
      (b.table.address? (ascii "L")).map UInt16.toNat = some 4) ∧
    ∃ a, (assemble ⟨ascii "(L)\n@y\n@L\n@SP\n@x\n(L)\n@y\n", none⟩).run (.fresh .lenient)
        = .ok () a ∧ a.table.address? (ascii "x") ≠ a.table.address? (ascii "y") := by
  obtain ⟨hstrict, hlenient⟩ :=
    variables_do_not_alias (ascii "(L)\n@y\n@L\n@SP\n@x\n(L)\n@y\n")
  refine ⟨rfl, rfl, ?_, ?_⟩
  · obtain ⟨b, hb⟩ := (strict_run_ok_iff (ascii "(L)\n@y\n@L\n@SP\n@x\n(L)\n@y\n")
      (show (Assembler.fresh .strict).mode = .strict from rfl)).2 (by decide +kernel)
    refine ⟨b, hb, ?_⟩
    exact (hstrict (.fresh .strict) b rfl hb).2
      [⟨1, ascii "(L)"⟩, ⟨2, ascii "@y"⟩, ⟨3, ascii "@L"⟩, ⟨4, ascii "@SP"⟩, ⟨5, ascii "@x"⟩]
      ⟨6, ascii "(L)"⟩ [⟨7, ascii "@y"⟩] (ascii "L") (by decide +kernel)
      (declaredLabel?_eq_some.1 (by decide +kernel))
      (by
        intro later hlater
        rw [List.mem_singleton.1 hlater, ← declaredLabel?_eq_some]
        decide +kernel)
  · obtain ⟨a, ha, halias⟩ := hlenient (.fresh .lenient) rfl
    refine ⟨a, ha, fun hsame => ?_⟩
    have hmod := (halias (ascii "x") (ascii "y") (by decide +kernel) (by decide +kernel)
      (by decide)).1.1 hsame
    exact absurd hmod (by decide +kernel)

end HackAssembly
