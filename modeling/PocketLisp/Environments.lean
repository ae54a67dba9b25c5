import PocketLisp.StoredData
import PocketLisp.ValueText

/-!
# Environments

Looking a key up walks the frames from the innermost outwards and takes the first pair whose key is
that very value. Environments that extend others share the cells of their frames, so a binding made
in the global frame is seen by all of them.
-/
namespace PocketLisp

namespace Store

/-- Whether a value is a pair whose first part is the key. -/
def binds (s : Store) (key pair : Value) : Bool :=
  match s.cell? pair with
  | some c => c.car = key
  | none => false

def findPair? (s : Store) (frames key : Value) : Option Value :=
  (s.elements frames).findSome? (fun frame => (s.elements frame).find? (s.binds key))

def newRoot (s : Store) (frames : Value) (table : Nat) : Env × Store :=
  (⟨s.nextSerial, frames, table, s.nextSerial, frames⟩,
    { s with nextSerial := s.nextSerial + 1 })

/-- An environment over the given frames that shares the table and the global environment of
another. -/
def newInner (s : Store) (frames : Value) (outer : Env) : Env × Store :=
  ({ outer with serial := s.nextSerial, frames := frames },
    { s with nextSerial := s.nextSerial + 1 })

end Store

namespace Env

def find? (e : Env) (key : Value) : Run (Option Value) :=
  Run.look (fun s => s.findPair? e.frames key)

/-- The value bound to a key, or an error value. -/
def get (e : Env) (key : Value) : Run Value := do
  match ← e.find? key with
  | some pair => Run.look (·.cdr pair)
  | none =>
    let name ← Run.look (·.print key)
    Run.make (fun s => s.error (name ++ " has no value"))

/-- Binds a key in the innermost frame, in front of what is bound there. -/
def set (e : Env) (key value : Value) : Run Unit := do
  match ← Run.look (·.cell? e.frames) with
  | some frame =>
    let pair ← Run.make (fun s => s.cons key value)
    let bindings ← Run.make (fun s => s.cons pair frame.car)
    modify (fun s => s.setCar e.frames bindings)
  | none => Run.fault .noFrame

def extend (e : Env) (params args : Value) : Run Env := do
  let frame ← Run.make (fun s => s.zip params args)
  let frames ← Run.make (fun s => s.cons frame e.frames)
  Run.make (fun s => s.newInner frames e)

def newGlobal (table : Nat) : Run Env := do
  let frames ← Run.make (fun s => s.cons .nil .nil)
  Run.make (fun s => s.newRoot frames table)

/-- Binds the value that a name reads as. -/
def define (e : Env) (name : String) (value : Value) : Run Unit := do
  let key ← Run.make (fun s => s.intern e.table name)
  e.set key value

/-- A global environment that binds the core procedures, and `t` to itself. -/
def newCore (table : Nat) : Run Env := do
  let e ← newGlobal table
  e.define "car" (.subr 0 .car)
  e.define "cdr" (.subr 0 .cdr)
  e.define "cons" (.subr 0 .cons)
  let t ← Run.make (fun s => s.intern table "t")
  e.set t t
  return e

/-- A global environment that binds the core procedures, with a symbol table of its own. -/
def newSession : Run Env := do
  let table ← Run.make Store.newTable
  newCore table

end Env

end PocketLisp
