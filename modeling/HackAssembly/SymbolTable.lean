import HackAssembly.Symbol
import HackAssembly.Text.Decimal
import Std.Data.ExtTreeMap

/-!
# The symbol table

The table maps names to 16-bit addresses.  A fresh table holds the twenty-three predefined names of
the platform; nothing protects them, so that inserting a name overwrites whatever it was bound to.

Every listing of the table is in one order, by address and then by the bytes of the name.  Two
entries never compare equal in it, since their names differ, so the listing depends only on the
mapping and not on how it was built up.

* `SymbolTable.predefined`: the fresh table.
* `insert`, `contains`, `address?`, `size`: the table as a finite map.
* `entries`, `names`, `render`: the listings.
-/

namespace HackAssembly

abbrev Address := UInt16

structure SymbolTable where
  addresses : Std.ExtTreeMap Bytes Address compare

namespace SymbolTable

/-! ## Building -/

def empty : SymbolTable := ⟨∅⟩

/-- Binds a name, in place of what it was bound to before. -/
def insert (table : SymbolTable) (name : Bytes) (address : Address) : SymbolTable :=
  ⟨table.addresses.insert name address⟩

/-- The names that every program may use without declaring them. -/
def predefinedEntries : List (Bytes × Address) :=
  [(ascii "SP", 0), (ascii "LCL", 1), (ascii "ARG", 2), (ascii "THIS", 3), (ascii "THAT", 4),
    (ascii "R0", 0), (ascii "R1", 1), (ascii "R2", 2), (ascii "R3", 3), (ascii "R4", 4),
    (ascii "R5", 5), (ascii "R6", 6), (ascii "R7", 7), (ascii "R8", 8), (ascii "R9", 9),
    (ascii "R10", 10), (ascii "R11", 11), (ascii "R12", 12), (ascii "R13", 13),
    (ascii "R14", 14), (ascii "R15", 15), (ascii "SCREEN", 16384), (ascii "KBD", 24576)]

def predefined : SymbolTable :=
  predefinedEntries.foldl (fun table entry => table.insert entry.1 entry.2) empty

/-! ## Looking up -/

def address? (table : SymbolTable) (name : Bytes) : Option Address := table.addresses[name]?

def contains (table : SymbolTable) (name : Bytes) : Bool := table.addresses.contains name

def size (table : SymbolTable) : Nat := table.addresses.size

/-- The last address that a name was bound to counts, and other names keep theirs. -/
theorem address?_insert (table : SymbolTable) (name other : Bytes) (address : Address) :
    (table.insert name address).address? other
      = if name = other then some address else table.address? other := by
  simp [insert, address?, Std.ExtTreeMap.getElem?_insert, Std.LawfulEqCmp.compare_eq_iff_eq]

theorem contains_eq_isSome (table : SymbolTable) (name : Bytes) :
    table.contains name = (table.address? name).isSome := by
  simp [contains, address?]

theorem contains_insert (table : SymbolTable) (name other : Bytes) (address : Address) :
    (table.insert name address).contains other
      = (decide (name = other) || table.contains other) := by
  rw [contains_eq_isSome, address?_insert, contains_eq_isSome]
  by_cases h : name = other <;> simp [h]

/-- Only a new name makes the table larger. -/
theorem size_insert (table : SymbolTable) (name : Bytes) (address : Address) :
    (table.insert name address).size = if table.contains name then table.size else table.size + 1 :=
  Std.ExtTreeMap.size_insert

/-- Tables that give the same addresses are equal. -/
theorem ext_address? {t u : SymbolTable} (h : ∀ name, t.address? name = u.address? name) :
    t = u := by
  obtain ⟨t⟩ := t
  obtain ⟨u⟩ := u
  congr
  exact Std.ExtTreeMap.ext_getElem? h

/-! ## Listing -/

/-- The order of the listings: by address, then by the bytes of the name. -/
def entryLE (x y : Bytes × Address) : Bool :=
  x.2 < y.2 || (x.2 == y.2 && (compare x.1 y.1).isLE)

def entries (table : SymbolTable) : List (Bytes × Address) :=
  table.addresses.toList.mergeSort entryLE

def names (table : SymbolTable) : List Bytes := table.entries.map Prod.fst

/-- One line of the listing: the name, a colon, a space and the address. -/
def renderEntry (entry : Bytes × Address) : Bytes :=
  entry.1 ++ ascii ": " ++ Decimal.ofNat entry.2.toNat ++ [Byte.lineFeed]

def render (table : SymbolTable) : Bytes := table.entries.flatMap renderEntry

end SymbolTable

end HackAssembly
