import PocketLisp.CellStore

/-!
# Symbol tables

A symbol table holds one symbol for each name that has been interned in it. The name `nil` is never
in a table: it stands for the empty list.
-/
namespace PocketLisp

namespace Store

/-- The symbols of a table, latest first. -/
def symbols (s : Store) (table : Nat) : List Symbol :=
  s.tables[table]?.getD []

def findSymbol? (s : Store) (table : Nat) (name : String) : Option Symbol :=
  (s.symbols table).find? (fun sym => sym.name = name)

def isInterned (s : Store) (table : Nat) (name : String) : Bool :=
  (s.findSymbol? table name).isSome

def tableSize (s : Store) (table : Nat) : Nat :=
  (s.symbols table).length

def newTable (s : Store) : Nat × Store :=
  (s.tables.size, { s with tables := s.tables.push [] })

/-- The symbol of a name in a table, which gets a new one if it has none. -/
def intern (s : Store) (table : Nat) (name : String) : Value × Store :=
  if name = "nil" then (.nil, s)
  else match s.findSymbol? table name with
    | some sym => (.sym sym, s)
    | none =>
      let sym : Symbol := ⟨s.nextSerial, name⟩
      (.sym sym, { s with
        tables := s.tables.modify table (sym :: ·)
        nextSerial := s.nextSerial + 1 })

theorem intern_nil (s : Store) (table : Nat) : s.intern table "nil" = (.nil, s) := rfl

theorem intern_of_findSymbol? {s : Store} {table : Nat} {name : String} {sym : Symbol}
    (h : s.findSymbol? table name = some sym) (hn : name ≠ "nil") :
    s.intern table name = (.sym sym, s) := by
  simp [intern, h, hn]

theorem cells_intern (s : Store) (table : Nat) (name : String) :
    (s.intern table name).2.cells = s.cells := by
  unfold intern
  split
  · rfl
  · split <;> rfl

def internAll (s : Store) (table : Nat) (names : List String) : Store :=
  names.foldl (fun s name => (s.intern table name).2) s

end Store

end PocketLisp
