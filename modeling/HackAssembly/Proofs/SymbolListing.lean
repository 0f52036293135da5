import HackAssembly.Proofs.Lines
import HackAssembly.SymbolTable
import Mathlib.Data.Finset.Card

/-!
# Listing a symbol table

The listing of a table shows the mapping, no more and no less.

It shows no more, because it does not depend on how the mapping came about.  Of two entries with
different names one comes strictly before the other (`Before`), by its address or, where these are
equal, by its name.  So the names have one order in which none stands behind one that it comes
before, and whatever way of sorting is used on whatever order of the names, this one comes out
(`names_eq_of_perm`).

It shows no less, because it can be read.  Each entry is a line of its own, in which the address
stands behind the first space.  A symbol may hold digits and colons and end with them, but it holds
neither spaces nor line feeds (`notMem_of_isSymbol`), so that the line is cut into its name and its
address in one way only (`entryLine_injective`).

* `bindAll`: a table after some names have been bound, the last address of each one counting
  (`address?_bindAll`).
* `mem_entries`, `mem_names`, `nodup_names`, `pairwise_names`: what the listings hold and in which
  order.
* `render_injective_of_symbols`: what a listing says about the table.
-/

namespace HackAssembly.SymbolTable

/-! ## Binding names -/

def bindAll (table : SymbolTable) (bindings : List (Bytes × Address)) : SymbolTable :=
  bindings.foldl (fun t binding => t.insert binding.1 binding.2) table

/-- **The last address that a name was bound to counts.** -/
theorem address?_bindAll (table : SymbolTable) (bindings : List (Bytes × Address))
    (name : Bytes) :
    (table.bindAll bindings).address? name
      = (bindings.reverse.lookup name).or (table.address? name) := by
  induction bindings generalizing table with
  | nil => rfl
  | cons binding bindings ih =>
    have hstep : table.bindAll (binding :: bindings)
        = (table.insert binding.1 binding.2).bindAll bindings := rfl
    rw [hstep, ih, address?_insert, List.reverse_cons, List.lookup_append, Option.or_assoc]
    congr 1
    by_cases hname : binding.1 = name
    · rw [if_pos hname, List.lookup_cons, hname, beq_self_eq_true]
      rfl
    · rw [if_neg hname, List.lookup_cons, beq_false_of_ne (Ne.symm hname)]
      rfl

/-- No name is predefined twice. -/
theorem address?_predefined (name : Bytes) :
    predefined.address? name = predefinedEntries.lookup name := by
  have hempty : empty.address? name = none := by simp [empty, address?]
  have hfold : predefined = empty.bindAll predefinedEntries := rfl
  rw [hfold, address?_bindAll, hempty, Option.or_none]
  have hsame : ∀ entry ∈ predefinedEntries,
      predefinedEntries.reverse.lookup entry.1 = predefinedEntries.lookup entry.1 := by
    decide +kernel
  by_cases hname : ∃ entry ∈ predefinedEntries, entry.1 = name
  · obtain ⟨entry, hentry, rfl⟩ := hname
    exact hsame entry hentry
  · have hnone : ∀ entry ∈ predefinedEntries, (name != entry.1) = true := by
      intro entry hentry
      exact bne_iff_ne.2 fun heq => hname ⟨entry, hentry, heq.symm⟩
    rw [List.lookup_eq_none_iff.2 hnone, List.lookup_eq_none_iff.2]
    intro entry hentry
    exact hnone entry (List.mem_reverse.1 hentry)

theorem lookup_isSome_iff {entries : List (Bytes × Address)} {name : Bytes} :
    (entries.lookup name).isSome = true ↔ name ∈ entries.map Prod.fst := by
  induction entries with
  | nil => simp
  | cons entry entries ih =>
    rw [List.map_cons, List.mem_cons, ← ih, List.lookup_cons]
    by_cases hname : name = entry.1
    · rw [hname, beq_self_eq_true]
      simp
    · rw [beq_false_of_ne hname]
      simp [hname]

theorem contains_bindAll (table : SymbolTable) (bindings : List (Bytes × Address)) (name : Bytes) :
    (table.bindAll bindings).contains name = true
      ↔ table.contains name = true ∨ name ∈ bindings.map Prod.fst := by
  rw [contains_eq_isSome, contains_eq_isSome, address?_bindAll, Option.isSome_or, Bool.or_eq_true,
    lookup_isSome_iff, List.map_reverse, List.mem_reverse, or_comm]

theorem contains_bindAll_empty (bindings : List (Bytes × Address)) (name : Bytes) :
    (empty.bindAll bindings).contains name = true ↔ name ∈ bindings.map Prod.fst := by
  have hempty : empty.contains name = false := by simp [empty, contains]
  rw [contains_bindAll, hempty]
  simp

/-- The names of a fresh table in which some are bound are these and the predefined ones. -/
theorem contains_bindAll_predefined (bindings : List (Bytes × Address)) (name : Bytes) :
    (predefined.bindAll bindings).contains name = true
      ↔ name ∈ (predefinedEntries ++ bindings).map Prod.fst := by
  have hfold : predefined = empty.bindAll predefinedEntries := rfl
  rw [contains_bindAll, hfold, contains_bindAll_empty, List.map_append, List.mem_append]

/-! ## The order of the listings -/

theorem compare_eq_lt_iff (x y : Bytes) : compare x y = .lt ↔ x < y := by
  induction x generalizing y with
  | nil => cases y <;> simp
  | cons a x ih =>
    cases y with
    | nil => simp
    | cons b y =>
      rw [List.cons_lt_cons_iff, ← ih, List.compare_eq_compareLex, List.compareLex_cons_cons,
        Ordering.then_eq_lt, Std.compare_eq_lt, Std.LawfulEqCmp.compare_eq_iff_eq]

/-- An entry comes before another one by its address, or by the bytes of its name where the
addresses are equal. -/
def Before (x y : Bytes × Address) : Prop := x.2 < y.2 ∨ x.2 = y.2 ∧ x.1 < y.1

instance (x y : Bytes × Address) : Decidable (Before x y) :=
  inferInstanceAs (Decidable (x.2 < y.2 ∨ x.2 = y.2 ∧ x.1 < y.1))

namespace Before

variable {x y z : Bytes × Address}

theorem trans (hxy : Before x y) (hyz : Before y z) : Before x z := by
  rcases hxy with hxy | ⟨hxy, hname⟩
  · rcases hyz with hyz | ⟨hyz, -⟩
    · exact Or.inl (UInt16.lt_trans hxy hyz)
    · exact Or.inl (hyz ▸ hxy)
  · rcases hyz with hyz | ⟨hyz, hname'⟩
    · exact Or.inl (hxy ▸ hyz)
    · refine Or.inr ⟨hxy.trans hyz, ?_⟩
      rw [← compare_eq_lt_iff] at hname hname' ⊢
      exact Std.TransCmp.lt_trans hname hname'

theorem irrefl (x : Bytes × Address) : ¬ Before x x := by
  rintro (haddress | ⟨-, hname⟩)
  · exact UInt16.lt_irrefl _ haddress
  · have hself : compare x.1 x.1 = .eq := Std.ReflCmp.compare_self
    rw [← compare_eq_lt_iff, hself] at hname
    cases hname

theorem asymm (hxy : Before x y) : ¬ Before y x := fun hyx => irrefl x (hxy.trans hyx)

theorem total (x y : Bytes × Address) : Before x y ∨ x = y ∨ Before y x := by
  obtain ⟨m, p⟩ := x
  obtain ⟨n, q⟩ := y
  rcases Nat.lt_trichotomy p.toNat q.toNat with hlt | heq | hgt
  · exact Or.inl (Or.inl (UInt16.lt_iff_toNat_lt.2 hlt))
  · obtain rfl := UInt16.toNat.inj heq
    -- the addresses are equal, so the names decide
    cases hcompare : compare m n with
    | lt => exact Or.inl (Or.inr ⟨rfl, (compare_eq_lt_iff m n).1 hcompare⟩)
    | eq => exact Or.inr (Or.inl (by rw [Std.LawfulEqCmp.eq_of_compare hcompare]))
    | gt =>
      have hlt : n < m := (compare_eq_lt_iff n m).1 (Std.OrientedCmp.gt_iff_lt.1 hcompare)
      exact Or.inr (Or.inr (Or.inr ⟨rfl, hlt⟩))
  · exact Or.inr (Or.inr (Or.inl (UInt16.lt_iff_toNat_lt.2 hgt)))

end Before

theorem entryLE_iff {x y : Bytes × Address} : entryLE x y = true ↔ Before x y ∨ x = y := by
  obtain ⟨m, p⟩ := x
  obtain ⟨n, q⟩ := y
  have hle : (compare m n).isLE = true ↔ m < n ∨ m = n := by
    have heq : compare m n = .eq ↔ m = n := Std.LawfulEqCmp.compare_eq_iff_eq
    rw [← compare_eq_lt_iff, ← heq]
    cases compare m n <;> simp
  rw [entryLE, Bool.or_eq_true, Bool.and_eq_true, decide_eq_true_iff, beq_iff_eq, hle, Before,
    Prod.mk.injEq]
  tauto

theorem entryLE_trans (x y z : Bytes × Address) (hxy : entryLE x y = true)
    (hyz : entryLE y z = true) : entryLE x z = true := by
  rw [entryLE_iff] at hxy hyz ⊢
  rcases hxy with hxy | rfl
  · rcases hyz with hyz | rfl
    · exact Or.inl (hxy.trans hyz)
    · exact Or.inl hxy
  · exact hyz

theorem entryLE_total (x y : Bytes × Address) : (entryLE x y || entryLE y x) = true := by
  rw [Bool.or_eq_true, entryLE_iff, entryLE_iff]
  rcases Before.total x y with hxy | rfl | hyx
  · exact Or.inl (Or.inl hxy)
  · exact Or.inl (Or.inr rfl)
  · exact Or.inr (Or.inl hyx)

/-! ## What the listings hold -/

variable (table : SymbolTable)

theorem perm_entries : table.entries.Perm table.addresses.toList :=
  List.mergeSort_perm _ entryLE

theorem mem_entries {name : Bytes} {address : Address} :
    (name, address) ∈ table.entries ↔ table.address? name = some address := by
  rw [table.perm_entries.mem_iff]
  exact Std.ExtTreeMap.mem_toList_iff_getElem?_eq_some

theorem mem_names_iff_exists {name : Bytes} :
    name ∈ table.names ↔ ∃ address, table.address? name = some address := by
  rw [names, List.mem_map]
  constructor
  · intro ⟨entry, hentry, hname⟩
    exact ⟨entry.2, hname ▸ table.mem_entries.1 hentry⟩
  · intro ⟨address, haddress⟩
    exact ⟨(name, address), table.mem_entries.2 haddress, rfl⟩

theorem mem_names (name : Bytes) : name ∈ table.names ↔ table.contains name = true := by
  rw [mem_names_iff_exists, contains_eq_isSome, Option.isSome_iff_exists]

theorem perm_names : table.names.Perm table.addresses.keys := by
  have hperm := table.perm_entries.map Prod.fst
  rwa [Std.ExtTreeMap.map_fst_toList_eq_keys] at hperm

theorem nodup_names : table.names.Nodup :=
  table.perm_names.nodup_iff.2 Std.ExtTreeMap.nodup_keys

theorem length_names : table.names.length = table.size := by
  rw [names, List.length_map, table.perm_entries.length_eq]
  exact Std.ExtTreeMap.length_toList

/-- A list that has each of some names once is as long as there are names. -/
theorem length_eq_card_toFinset {l m : List Bytes} (hl : l.Nodup)
    (h : ∀ name, name ∈ l ↔ name ∈ m) : l.length = m.toFinset.card := by
  have hsame : l.toFinset = m.toFinset := by
    ext name
    rw [List.mem_toFinset, List.mem_toFinset, h]
  rw [← hsame, List.toFinset_card_of_nodup hl]

theorem pairwise_entries : table.entries.Pairwise Before := by
  have hsorted : table.entries.Pairwise fun x y => entryLE x y = true :=
    List.pairwise_mergeSort entryLE_trans entryLE_total _
  have hdistinct : table.entries.Pairwise fun x y => x.1 ≠ y.1 :=
    List.pairwise_map.1 table.nodup_names
  refine (hsorted.and hdistinct).imp ?_
  intro x y ⟨hle, hne⟩
  rcases entryLE_iff.1 hle with hbefore | rfl
  · exact hbefore
  · exact absurd rfl hne

def Precedes (x y : Bytes) : Prop :=
  ∃ p ∈ table.address? x, ∃ q ∈ table.address? y, Before (x, p) (y, q)

instance (x y : Bytes) : Decidable (table.Precedes x y) :=
  inferInstanceAs <| Decidable <|
    ∃ p ∈ table.address? x, ∃ q ∈ table.address? y, Before (x, p) (y, q)

theorem pairwise_names : table.names.Pairwise table.Precedes := by
  refine List.pairwise_map.2 (table.pairwise_entries.imp_of_mem ?_)
  intro x y hx hy hbefore
  exact ⟨x.2, table.mem_entries.1 hx, y.2, table.mem_entries.1 hy, hbefore⟩

/-- **There is one order of the names** in which none stands behind one that it comes before. -/
theorem names_eq_of_perm {l : List Bytes} (hperm : l.Perm table.names)
    (hsorted : l.Pairwise fun x y => ¬ table.Precedes y x) : l = table.names := by
  have hnames : table.names.Pairwise fun x y => ¬ table.Precedes y x := by
    refine table.pairwise_names.imp ?_
    intro x y ⟨p, hp, q, hq, hbefore⟩ ⟨q', hq', p', hp', hback⟩
    obtain rfl : q = q' := Option.some.inj (hq.symm.trans hq')
    obtain rfl : p = p' := Option.some.inj (hp.symm.trans hp')
    exact hbefore.asymm hback
  refine List.Perm.eq_of_pairwise ?_ hsorted hnames hperm
  intro x y hx hy hxy hyx
  -- two names of the table that come in neither order are the same
  obtain ⟨p, hp⟩ := table.mem_names_iff_exists.1 (hperm.mem_iff.1 hx)
  obtain ⟨q, hq⟩ := table.mem_names_iff_exists.1 hy
  rcases Before.total (x, p) (y, q) with hbefore | heq | hbefore
  · exact absurd ⟨p, hp, q, hq, hbefore⟩ hyx
  · exact (Prod.mk.inj heq).1
  · exact absurd ⟨q, hq, p, hp, hbefore⟩ hxy

/-- The listing names each entry by its name and the address that the table has for it. -/
theorem render_eq_flatMap_names :
    table.render
      = table.names.flatMap fun name => renderEntry (name, (table.address? name).getD 0) := by
  rw [render, names, List.flatMap_map]
  refine List.flatMap_congr fun entry hentry => ?_
  rw [table.mem_entries.1 hentry]
  rfl

/-! ## Reading a listing -/

def entryLine (entry : Bytes × Address) : Bytes :=
  entry.1 ++ ascii ": " ++ Decimal.ofNat entry.2.toNat

theorem render_eq_unlines : table.render = unlines (table.entries.map entryLine) := by
  rw [render, unlines, List.flatMap_map]
  rfl

theorem notMem_of_isSymbol {name : Bytes} (h : Symbol.isSymbol name = true) {b : UInt8}
    (hb : Symbol.isPart b = false) : b ∉ name := by
  intro hmem
  cases name with
  | nil => cases hmem
  | cons c name =>
    rw [Symbol.isSymbol, Bool.and_eq_true] at h
    rcases List.mem_cons.1 hmem with rfl | hrest
    · rw [Symbol.isPart, h.1, Bool.true_or] at hb
      cases hb
    · rw [List.all_eq_true.1 h.2 b hrest] at hb
      cases hb

theorem lineFeed_notMem_entryLine {entry : Bytes × Address}
    (h : Symbol.isSymbol entry.1 = true) : Byte.lineFeed ∉ entryLine entry := by
  have hnum := Decimal.isNumeral_ofNat entry.2.toNat
  rw [Decimal.isNumeral, Bool.and_eq_true] at hnum
  rw [entryLine, List.mem_append, List.mem_append]
  rintro ((hname | hmarks) | hdigits)
  · exact notMem_of_isSymbol h (by decide) hname
  · exact absurd hmarks (by decide)
  · exact absurd (List.all_eq_true.1 hnum.2 _ hdigits) (by decide)

/-- **A line is read in one way only**: the name and its colon stand before the first space. -/
theorem entryLine_injective {x y : Bytes × Address} (hx : Symbol.isSymbol x.1 = true)
    (hy : Symbol.isSymbol y.1 = true) (h : entryLine x = entryLine y) : x = y := by
  have hcut : ∀ entry : Bytes × Address, Symbol.isSymbol entry.1 = true →
      entryLine entry = (entry.1 ++ [0x3A]) ++ 0x20 :: Decimal.ofNat entry.2.toNat ∧
        (0x20 : UInt8) ∉ entry.1 ++ [0x3A] := by
    intro entry hentry
    refine ⟨?_, ?_⟩
    · rw [entryLine, List.append_assoc, List.append_assoc]
      rfl
    · rw [List.mem_append]
      rintro (hname | hcolon)
      · exact notMem_of_isSymbol hentry (by decide) hname
      · exact absurd hcolon (by decide)
  obtain ⟨hxline, hxspace⟩ := hcut x hx
  obtain ⟨hyline, hyspace⟩ := hcut y hy
  rw [hxline, hyline] at h
  have hname := congrArg (List.takeWhile (· != 0x20)) h
  rw [takeWhile_ne_append_cons hxspace, takeWhile_ne_append_cons hyspace] at hname
  have haddress := congrArg (List.dropWhile (· != 0x20)) h
  rw [dropWhile_ne_append_cons hxspace, dropWhile_ne_append_cons hyspace] at haddress
  have hvalue := congrArg Decimal.value (List.cons.inj haddress).2
  rw [Decimal.value_ofNat, Decimal.value_ofNat] at hvalue
  exact Prod.ext (List.append_cancel_right hname) (UInt16.toNat.inj hvalue)

theorem unlines_injective {ls ms : List Bytes} (hls : ∀ l ∈ ls, Byte.lineFeed ∉ l)
    (hms : ∀ l ∈ ms, Byte.lineFeed ∉ l) (h : unlines ls = unlines ms) : ls = ms := by
  have hchunks := congrArg chunks h
  rw [chunks_unlines hls, chunks_unlines hms] at hchunks
  exact List.map_injective_iff.2 (fun l m hlm => List.append_cancel_right hlm)
    (Prod.mk.inj hchunks).1

/-- A list of entries is determined by their lines. -/
theorem map_entryLine_injective {xs ys : List (Bytes × Address)}
    (hxs : ∀ x ∈ xs, Symbol.isSymbol x.1 = true) (hys : ∀ y ∈ ys, Symbol.isSymbol y.1 = true)
    (h : xs.map entryLine = ys.map entryLine) : xs = ys := by
  induction xs generalizing ys with
  | nil =>
    cases ys with
    | nil => rfl
    | cons y ys => cases h
  | cons x xs ih =>
    cases ys with
    | nil => cases h
    | cons y ys =>
      rw [List.map_cons, List.map_cons] at h
      obtain ⟨hfirst, hrest⟩ := List.cons.inj h
      rw [entryLine_injective (hxs x List.mem_cons_self) (hys y List.mem_cons_self) hfirst,
        ih (fun z hz => hxs z (List.mem_cons_of_mem x hz))
          (fun z hz => hys z (List.mem_cons_of_mem y hz)) hrest]

variable {table}

theorem isSymbol_of_mem_entries
    (h : ∀ name, table.contains name = true → Symbol.isSymbol name = true) :
    ∀ entry ∈ table.entries, Symbol.isSymbol entry.1 = true := by
  intro entry hentry
  exact h entry.1 ((table.mem_names entry.1).1 (List.mem_map_of_mem hentry))

/-- **A listing of symbols says what the mapping is.** -/
theorem render_injective_of_symbols {other : SymbolTable}
    (ht : ∀ name, table.contains name = true → Symbol.isSymbol name = true)
    (hu : ∀ name, other.contains name = true → Symbol.isSymbol name = true)
    (h : table.render = other.render) (name : Bytes) :
    table.address? name = other.address? name := by
  have htable := isSymbol_of_mem_entries ht
  have hother := isSymbol_of_mem_entries hu
  have hentries : table.entries = other.entries := by
    rw [render_eq_unlines, render_eq_unlines] at h
    refine map_entryLine_injective htable hother (unlines_injective ?_ ?_ h)
    · rw [List.forall_mem_map]
      exact fun entry hentry => lineFeed_notMem_entryLine (htable entry hentry)
    · rw [List.forall_mem_map]
      exact fun entry hentry => lineFeed_notMem_entryLine (hother entry hentry)
  apply Option.ext
  intro address
  rw [← mem_entries, ← mem_entries, hentries]

/-- **The listing is canonical and lossless.**  Whatever names are bound in a fresh table, one after
the other, each name has the address that it was bound to last, or else its predefined one, and the
size is the number of different names.  The names are listed once each and in strictly ascending
order, by address and then by name; any other order of them has a name behind one that it comes
before, so that sorting can give no other list.  The listing is made from the names and their
addresses; so it depends on nothing but the mapping.  And of tables whose names are symbols, two
with the same listing are the same mapping. -/
theorem listing_is_canonical (bindings : List (Bytes × Address)) (table : SymbolTable)
    (htable : table = predefined.bindAll bindings) :
    (∀ name, table.address? name
      = (bindings.reverse.lookup name).or (predefinedEntries.lookup name)) ∧
    table.size = ((predefinedEntries ++ bindings).map Prod.fst).toFinset.card ∧
    (∀ name, name ∈ table.names ↔ name ∈ (predefinedEntries ++ bindings).map Prod.fst) ∧
    table.names.Nodup ∧ table.names.Pairwise table.Precedes ∧
    (∀ l : List Bytes, l.Perm table.names → (l.Pairwise fun x y => ¬ table.Precedes y x) →
      l = table.names) ∧
    table.render
      = (table.names.flatMap fun name => renderEntry (name, (table.address? name).getD 0)) ∧
    (∀ other : SymbolTable, (∀ name, other.address? name = table.address? name) →
      other.names = table.names ∧ other.render = table.render) ∧
    ∀ t u : SymbolTable, (∀ name, t.contains name = true → Symbol.isSymbol name = true) →
      (∀ name, u.contains name = true → Symbol.isSymbol name = true) → t.render = u.render →
      ∀ name, t.address? name = u.address? name := by
  have hmem : ∀ name, name ∈ table.names
      ↔ name ∈ (predefinedEntries ++ bindings).map Prod.fst := by
    intro name
    rw [mem_names, htable, contains_bindAll_predefined]
  refine ⟨?_, ?_, hmem, table.nodup_names, table.pairwise_names, ?_,
    table.render_eq_flatMap_names, ?_, ?_⟩
  · intro name
    rw [htable, address?_bindAll, address?_predefined]
  · rw [← table.length_names]
    exact length_eq_card_toFinset table.nodup_names hmem
  · intro l hperm hsorted
    exact table.names_eq_of_perm hperm hsorted
  · intro other hsame
    rw [ext_address? hsame]
    exact ⟨rfl, rfl⟩
  · intro t u ht hu hrender
    exact render_injective_of_symbols ht hu hrender

/-- A predefined name that moves, a name that is bound twice, and one that shares its address.  Two
tables with names that end with a colon, bound in different orders. -/
theorem listing_is_canonical_shared :
    (predefined.bindAll
        [(ascii "i:", 16), (ascii "SP", 256), (ascii "i", 16), (ascii "i:", 15)]).names
      = ["R0", "LCL", "R1", "ARG", "R2", "R3", "THIS", "R4", "THAT", "R5", "R6", "R7", "R8", "R9",
          "R10", "R11", "R12", "R13", "R14", "R15", "i:", "i", "SP", "SCREEN", "KBD"].map ascii ∧
    (empty.bindAll [(ascii "a:", 5), (ascii "a", 5)]).render
      = (empty.bindAll [(ascii "a", 7), (ascii "a:", 5), (ascii "a", 5)]).render ∧
    ∀ name, (empty.bindAll [(ascii "a:", 5), (ascii "a", 5)]).address? name
      = (empty.bindAll [(ascii "a", 7), (ascii "a:", 5), (ascii "a", 5)]).address? name := by
  obtain ⟨-, -, -, -, -, hunique, -, -, hlossless⟩ := listing_is_canonical
    [(ascii "i:", 16), (ascii "SP", 256), (ascii "i", 16), (ascii "i:", 15)] _ rfl
  have hrender : (empty.bindAll [(ascii "a:", 5), (ascii "a", 5)]).render
      = (empty.bindAll [(ascii "a", 7), (ascii "a:", 5), (ascii "a", 5)]).render := by
    have hnames : ∀ t : SymbolTable, [ascii "a", ascii "a:"].Perm t.addresses.keys →
        ([ascii "a", ascii "a:"].Pairwise fun x y => ¬ t.Precedes y x) →
        t.names = [ascii "a", ascii "a:"] :=
      fun t hperm hsorted => (t.names_eq_of_perm (hperm.trans t.perm_names.symm) hsorted).symm
    rw [render_eq_flatMap_names, hnames _ (by decide +kernel) (by decide +kernel),
      render_eq_flatMap_names, hnames _ (by decide +kernel) (by decide +kernel)]
    decide +kernel
  refine ⟨(hunique _ ?_ ?_).symm, hrender, hlossless _ _ ?_ ?_ hrender⟩
  · refine List.Perm.trans ?_ (perm_names _).symm
    decide +kernel
  · decide +kernel
  · intro name hname
    rw [contains_bindAll_empty] at hname
    revert name
    decide
  · intro name hname
    rw [contains_bindAll_empty] at hname
    revert name
    decide

end HackAssembly.SymbolTable
