/-!
# Trees of s-expressions

An s-expression over a type of atoms is an atom or a pair. It is the immutable form of data: what
the reader yields, and what a walk through the store unfolds to. Writing is given as a function
that puts the written form in front of a text, so that a written form may be followed by anything.
-/
namespace PocketLisp

/-- A binary tree whose leaves are atoms. -/
inductive Sexp (α : Type) where
  | atom (a : α)
  | cons (car cdr : Sexp α)
  deriving DecidableEq, Repr

/-- How atoms are written, and which of them ends a list without being written. -/
structure Spelling (α : Type) where
  text : α → List Char
  isNil : α → Bool

namespace Sexp
variable {α β : Type}

def map (f : α → β) : Sexp α → Sexp β
  | .atom a => .atom (f a)
  | .cons a d => .cons (map f a) (map f d)

/-- The chain of the given elements that ends in the atom `last`. -/
def ofList (last : α) (items : List (Sexp α)) : Sexp α :=
  items.foldr .cons (.atom last)

/-- The elements of the cdr chain, and the atom at its end. -/
def spine : Sexp α → List (Sexp α) × α
  | .atom a => ([], a)
  | .cons a d => (a :: (spine d).1, (spine d).2)

theorem spine_ofList (last : α) (items : List (Sexp α)) :
    (ofList last items).spine = (items, last) := by
  induction items with
  | nil => rfl
  | cons a items ih =>
    have h : (ofList last (a :: items)).spine =
        (a :: (ofList last items).spine.1, (ofList last items).spine.2) := rfl
    rw [h, ih]

mutual

/-- The written form of a tree in front of `rest`. -/
def render (s : Spelling α) : Sexp α → List Char → List Char
  | .atom a, rest => s.text a ++ rest
  | .cons a d, rest => '(' :: render s a (renderTail s d rest)

/-- What follows an element of a chain: further elements after a blank, a dotted end, or nothing,
and the closing parenthesis. -/
def renderTail (s : Spelling α) : Sexp α → List Char → List Char
  | .atom a, rest =>
    if s.isNil a then ')' :: rest else ' ' :: '.' :: ' ' :: (s.text a ++ ')' :: rest)
  | .cons a d, rest => ' ' :: render s a (renderTail s d rest)

end

def written (s : Spelling α) (t : Sexp α) : String :=
  String.ofList (t.render s [])

/-- Two trees of one shape whose atoms are related place by place. -/
def agree (r : α → α → Bool) : Sexp α → Sexp α → Bool
  | .atom a, .atom b => r a b
  | .cons a d, .cons b e => agree r a b && agree r d e
  | _, _ => false

end Sexp

end PocketLisp
