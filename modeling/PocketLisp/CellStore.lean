import PocketLisp.Fixnums
import PocketLisp.Faults
import PocketLisp.Sexp

/-!
# The store of cells

Values are flat: a cell and a closure are named by their place in the store, so structure may be
shared and cells may change. Equality of values is identity. Numbers, errors, symbols and procedures
carry a serial number for that purpose, which is drawn from the store when they are made. The walks
along cells are bounded by the number of cells, which no walk without a repetition exceeds.
-/
namespace PocketLisp

/-- A name, and the serial number that tells it from other symbols of that name. -/
structure Symbol where
  serial : Nat
  name : String
  deriving DecidableEq, Repr

/-- What a procedure value does: one of the core procedures, or one that the host supplies. -/
inductive Procedure where
  | car
  | cdr
  | cons
  | host (name : String)
  deriving DecidableEq, Repr

inductive Value where
  | nil
  | num (serial : Nat) (n : Fixnum)
  | sym (s : Symbol)
  | error (serial : Nat) (message : String)
  | cons (cell : Nat)
  | subr (serial : Nat) (procedure : Procedure)
  | expr (closure : Nat)
  deriving DecidableEq, Repr

instance : Inhabited Value := ⟨.nil⟩

structure Cell where
  car : Value
  cdr : Value
  deriving DecidableEq, Repr

/-- An environment: a list of frames, the innermost first, each a list of pairs of a key and a
value. Every environment knows its symbol table and the frames of its global environment. -/
structure Env where
  serial : Nat
  frames : Value
  table : Nat
  globalSerial : Nat
  globalFrames : Value
  deriving DecidableEq, Repr

def Env.global (e : Env) : Env :=
  { e with serial := e.globalSerial, frames := e.globalFrames }

/-- A function of parameters, with the environment in which it was made. -/
structure Closure where
  params : Value
  body : Value
  env : Env
  deriving DecidableEq, Repr

/-- Cells, closures and symbol tables by their places, the next serial number, and the lines that
host procedures have noted. -/
structure Store where
  cells : Array Cell
  closures : Array Closure
  tables : Array (List Symbol)
  nextSerial : Nat
  journal : Array String
  deriving DecidableEq, Repr

/-- A store with nothing in it. Serial number zero is never drawn. -/
def Store.empty : Store := ⟨#[], #[], #[], 1, #[]⟩

namespace Store

def cell? (s : Store) : Value → Option Cell
  | .cons a => s.cells[a]?
  | _ => none

/-- The first part of a cell, and `nil` of anything else. -/
def car (s : Store) (v : Value) : Value :=
  match s.cell? v with
  | some c => c.car
  | none => .nil

def cdr (s : Store) (v : Value) : Value :=
  match s.cell? v with
  | some c => c.cdr
  | none => .nil

def elementsWithin (s : Store) : Nat → Value → List Value
  | 0, _ => []
  | fuel + 1, v => match s.cell? v with
    | some c => c.car :: elementsWithin s fuel c.cdr
    | none => []

/-- The elements of a list; whatever ends the chain is ignored. -/
def elements (s : Store) (v : Value) : List Value :=
  s.elementsWithin s.cells.size v

/-- The tree of a value, unfolded to at most `fuel` cells deep. -/
def treeWithin (s : Store) : Nat → Value → Sexp Value
  | 0, v => .atom v
  | fuel + 1, v => match s.cell? v with
    | some c => .cons (treeWithin s fuel c.car) (treeWithin s fuel c.cdr)
    | none => .atom v

/-- The tree of a value, whose leaves are the values that name no cell. -/
def tree (s : Store) (v : Value) : Sexp Value :=
  s.treeWithin s.cells.size v

def cons (s : Store) (car cdr : Value) : Value × Store :=
  (.cons s.cells.size, { s with cells := s.cells.push ⟨car, cdr⟩ })

def setCar (s : Store) (v x : Value) : Store :=
  match v with
  | .cons a => { s with cells := s.cells.modify a (fun c => { c with car := x }) }
  | _ => s

def setCdr (s : Store) (v x : Value) : Store :=
  match v with
  | .cons a => { s with cells := s.cells.modify a (fun c => { c with cdr := x }) }
  | _ => s

def num (s : Store) (n : Fixnum) : Value × Store :=
  (.num s.nextSerial n, { s with nextSerial := s.nextSerial + 1 })

def error (s : Store) (message : String) : Value × Store :=
  (.error s.nextSerial message, { s with nextSerial := s.nextSerial + 1 })

def subr (s : Store) (p : Procedure) : Value × Store :=
  (.subr s.nextSerial p, { s with nextSerial := s.nextSerial + 1 })

/-- A symbol that belongs to no table. -/
def symbol (s : Store) (name : String) : Value × Store :=
  (.sym ⟨s.nextSerial, name⟩, { s with nextSerial := s.nextSerial + 1 })

def closure (s : Store) (params body : Value) (env : Env) : Value × Store :=
  (.expr s.closures.size, { s with closures := s.closures.push ⟨params, body, env⟩ })

def closure? (s : Store) : Value → Option Closure
  | .expr a => s.closures[a]?
  | _ => none

/-- Relinks at most `fuel` cells of `v`, each in front of the ones before it, onto `done`. -/
def reverseOnto : Nat → Value → Value → Store → Value × Store
  | 0, _, done, s => (done, s)
  | fuel + 1, v, done, s => match s.cell? v with
    | some c => reverseOnto fuel c.cdr v (s.setCdr v done)
    | none => (done, s)

/-- Reverses a list in place, with its own cells. What ended the list is dropped. -/
def reverse (s : Store) (v : Value) : Value × Store :=
  reverseOnto s.cells.size v .nil s

/-- Adds the cells of a list in reverse order in front of `done`. -/
def pushAll : List Value → Value → Store → Value × Store
  | [], done, s => (done, s)
  | v :: vs, done, s => match s.cons v done with
    | (next, s) => pushAll vs next s

def ofList (s : Store) (vs : List Value) : Value × Store :=
  match pushAll vs .nil s with
  | (backwards, s) => s.reverse backwards

/-- Adds a pair for each of the given pairs, and their list in reverse order in front of `done`. -/
def pushPairs : List (Value × Value) → Value → Store → Value × Store
  | [], done, s => (done, s)
  | (k, v) :: pairs, done, s => match s.cons k v with
    | (pair, s) => match s.cons pair done with
      | (next, s) => pushPairs pairs next s

/-- A new list that pairs the elements of two lists, as long as the shorter one. -/
def zip (s : Store) (keys values : Value) : Value × Store :=
  match pushPairs ((s.elements keys).zip (s.elements values)) .nil s with
  | (backwards, s) => s.reverse backwards

end Store

/-- A computation on a store. A stop keeps the store as it was then. -/
abbrev Run := EStateM Stop Store

def Run.make {α : Type} (f : Store → α × Store) : Run α :=
  modifyGet f

def Run.look {α : Type} (f : Store → α) : Run α := do
  return f (← get)

def Run.fault {α : Type} (f : Fault) : Run α :=
  throw (.fault f)

/-- The outcome of a computation that may fault. Running out of bounds is no outcome. -/
def Run.attempt {α : Type} (x : Run α) : Run (Except Fault α) := fun s =>
  match x s with
  | .ok a s => .ok (.ok a) s
  | .error (.fault f) s => .ok (.error f) s
  | .error .exhausted s => .error .exhausted s

end PocketLisp
