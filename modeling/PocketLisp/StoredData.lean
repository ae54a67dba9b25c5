import PocketLisp.SymbolTables
import PocketLisp.FormReader

/-!
# Data in the store

What has been read is put into the store: its names are interned in the order in which they were
entered, and its datum becomes cells, symbols of the table, numbers and errors. The elements of a
list are collected latest first, and their cells are reversed in place at its end.
-/
namespace PocketLisp

namespace Store

def ofAtom (s : Store) (table : Nat) : Atom → Value × Store
  | .nil => (.nil, s)
  | .num n => s.num n
  | .sym name => s.intern table name
  | .error message => s.error message

mutual

/-- The value of a datum, with new cells and the symbols of a table. -/
def ofDatum (table : Nat) : Datum → Store → Value × Store
  | .atom a, s => s.ofAtom table a
  | .cons a d, s => match ofDatum table a s with
    | (v, s) => match s.cons v .nil with
      | (done, s) => ofTail table d done s

/-- The value of a chain whose elements so far are those of the list `done`, latest first. The
list is reversed in place in front of the end of the chain. -/
def ofTail (table : Nat) : Datum → Value → Store → Value × Store
  | .atom a, done, s => match s.ofAtom table a with
    | (last, s) => reverseOnto s.cells.size done last s
  | .cons a d, done, s => match ofDatum table a s with
    | (v, s) => match s.cons v done with
      | (done, s) => ofTail table d done s

end

end Store

/-- Puts what has been read into the store: interns its names and builds its datum. -/
def Reading.store {bound : List Char} (table : Nat) : Reading bound → Run (Value × List Char)
  | .form names d rest _ => do
    modify (fun s => s.internAll table names.reverse)
    let v ← Run.make (Store.ofDatum table d)
    return (v, rest)
  | .overlong names digits => do
    modify (fun s => s.internAll table names.reverse)
    Run.fault (.overlong digits)

def read (table : Nat) (text : List Char) : Run (Value × List Char) :=
  (readForm text [] text (Nat.le_succ _)).store table

/-- Reads the rest of a list whose opening parenthesis has been read. -/
def readList (table : Nat) (text : List Char) : Run (Value × List Char) :=
  (readItems text [] [] text (Nat.le_succ _)).store table

def readAtom (table : Nat) (text : List Char) : Run (Value × List Char) :=
  (readToken [] text (Nat.le_refl _)).store table

def tokenValue (table : Nat) (token : List Char) : Run Value :=
  match classify token with
  | .ok a => Run.make (fun s => s.ofAtom table a)
  | .error digits => Run.fault (.overlong digits)

def readFailure (message : String) : Run (Value × List Char) := do
  return (← Run.make (fun s => s.error message), [])

end PocketLisp
