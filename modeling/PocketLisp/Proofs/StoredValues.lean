import PocketLisp.Proofs.GlobalFrame
import PocketLisp.Proofs.ReferenceSemantics
import PocketLisp.Proofs.StoreTrees

/-!
# Values in the store

How values of the reference semantics are held by a store: as trees of cells that do not contain the
cell of the global frame, with the symbols of one table, and with closures whose frames hold the
local bindings and lead to the global frame. What is shared between values does not matter, and what
a store shows is shown by all stores that it grows to.
-/
namespace PocketLisp

/-- What can be shown by a value of the store: a value, the bindings of a frame, or frames. -/
inductive View where
  | value (x : PureValue)
  | bindings (bindings : List (String × PureValue))
  | frames (locals : Locals)

def Builtin.procedure : Builtin → Procedure
  | .car => .car
  | .cdr => .cdr
  | .cons => .cons

theorem Builtin.procedure_injective {b b' : Builtin} (h : b.procedure = b'.procedure) : b = b' := by
  cases b <;> cases b' <;> first | rfl | cases h

/-- A value of the store and what it shows. The symbols belong to `table`, and `global` is the cell
of the global frame. Pairs with a key that is no symbol bind nothing. -/
inductive Shows (table global : Nat) (s : Store) : Value → View → Prop where
  | nil : Shows table global s .nil (.value .nil)
  | num {serial : Nat} {n : Fixnum} : Shows table global s (.num serial n) (.value (.atom (.num n)))
  | sym {sym : Symbol} (own : s.findSymbol? table sym.name = some sym) :
      Shows table global s (.sym sym) (.value (.atom (.sym sym.name)))
  | error {serial : Nat} {message : String} :
      Shows table global s (.error serial message) (.value (.error message))
  | subr {serial : Nat} {b : Builtin} :
      Shows table global s (.subr serial b.procedure) (.value (.atom (.builtin b)))
  | expr {k : Nat} {c : Closure} {params body : PureValue} {locals : Locals}
      (closure : s.closures[k]? = some c) (own : c.env.table = table)
      (root : c.env.globalFrames = .cons global)
      (showsParams : Shows table global s c.params (.value params))
      (showsBody : Shows table global s c.body (.value body))
      (showsLocals : Shows table global s c.env.frames (.frames locals)) :
      Shows table global s (.expr k) (.value (.atom (.closure params body locals)))
  | cons {a : Nat} {v w : Value} {x y : PureValue} (inner : a ≠ global)
      (cell : s.cells[a]? = some ⟨v, w⟩) (car : Shows table global s v (.value x))
      (cdr : Shows table global s w (.value y)) :
      Shows table global s (.cons a) (.value (.cons x y))
  | noBindings : Shows table global s .nil (.bindings [])
  | bind {a p : Nat} {rest v : Value} {sym : Symbol} {x : PureValue}
      {bindings : List (String × PureValue)} (inner : a ≠ global)
      (cell : s.cells[a]? = some ⟨.cons p, rest⟩) (innerPair : p ≠ global)
      (pair : s.cells[p]? = some ⟨.sym sym, v⟩) (own : s.findSymbol? table sym.name = some sym)
      (value : Shows table global s v (.value x))
      (others : Shows table global s rest (.bindings bindings)) :
      Shows table global s (.cons a) (.bindings ((sym.name, x) :: bindings))
  | skip {a p : Nat} {rest key v : Value} {bindings : List (String × PureValue)}
      (inner : a ≠ global) (cell : s.cells[a]? = some ⟨.cons p, rest⟩) (innerPair : p ≠ global)
      (pair : s.cells[p]? = some ⟨key, v⟩) (noSymbol : ∀ sym, key ≠ .sym sym)
      (others : Shows table global s rest (.bindings bindings)) :
      Shows table global s (.cons a) (.bindings bindings)
  | root : Shows table global s (.cons global) (.frames [])
  | frame {a : Nat} {first rest : Value} {bindings : List (String × PureValue)} {locals : Locals}
      (inner : a ≠ global) (cell : s.cells[a]? = some ⟨first, rest⟩)
      (alist : Shows table global s first (.bindings bindings))
      (others : Shows table global s rest (.frames locals)) :
      Shows table global s (.cons a) (.frames (bindings :: locals))

def View.Same : View → View → Prop
  | .value x, .value y => x = y
  | .bindings bs, .bindings cs => bs = cs
  | .frames l, .frames l' => l = l'
  | _, _ => True

theorem rel_or {α β : Type} {r : α → β → Prop} {a a' : Option α} {b b' : Option β}
    (h : Option.Rel r a b) (h' : Option.Rel r a' b') : Option.Rel r (a.or a') (b.or b') := by
  cases h with
  | some h => exact .some h
  | none => exact h'

namespace Shows
variable {table global : Nat} {s s' : Store} {v : Value}

/-- What a value shows is shown in each store that keeps what the value is made of. The cell of the
global frame does not count. -/
theorem transfer {P : Value → Prop} {view : View} (h : Shows table global s v view) (hv : P v)
    (cells : ∀ (a : Nat) (c : Cell), a ≠ global → P (.cons a) → s.cells[a]? = some c →
      s'.cells[a]? = some c ∧ P c.car ∧ P c.cdr)
    (closures : ∀ (k : Nat) (c : Closure), P (.expr k) → s.closures[k]? = some c →
      s'.closures[k]? = some c ∧ P c.params ∧ P c.body ∧ P c.env.frames)
    (symbols : ∀ (table : Nat) (name : String) (sym : Symbol),
      s.findSymbol? table name = some sym → s'.findSymbol? table name = some sym) :
    Shows table global s' v view := by
  induction h with
  | nil => exact .nil
  | num => exact .num
  | sym own => exact .sym (symbols _ _ _ own)
  | error => exact .error
  | subr => exact .subr
  | expr closure own root _ _ _ ihParams ihBody ihFrames =>
    obtain ⟨closure', params, body, frames⟩ := closures _ _ hv closure
    exact .expr closure' own root (ihParams params) (ihBody body) (ihFrames frames)
  | cons inner cell _ _ ihCar ihCdr =>
    obtain ⟨cell', car, cdr⟩ := cells _ _ inner hv cell
    exact .cons inner cell' (ihCar car) (ihCdr cdr)
  | noBindings => exact .noBindings
  | bind inner cell innerPair pair own _ _ ihValue ihOthers =>
    obtain ⟨cell', first, rest⟩ := cells _ _ inner hv cell
    obtain ⟨pair', -, value⟩ := cells _ _ innerPair first pair
    exact .bind inner cell' innerPair pair' (symbols _ _ _ own) (ihValue value) (ihOthers rest)
  | skip inner cell innerPair pair noSymbol _ ihOthers =>
    obtain ⟨cell', first, rest⟩ := cells _ _ inner hv cell
    obtain ⟨pair', -, -⟩ := cells _ _ innerPair first pair
    exact .skip inner cell' innerPair pair' noSymbol (ihOthers rest)
  | root => exact .root
  | frame inner cell _ _ ihBindings ihOthers =>
    obtain ⟨cell', first, rest⟩ := cells _ _ inner hv cell
    exact .frame inner cell' (ihBindings first) (ihOthers rest)

/-- What a store shows stays when it grows, with new definitions or without. -/
theorem grow {view : View} (h : Shows table global s v view) (hs : GrowsAt global s s') :
    Shows table global s' v view := by
  refine @transfer table global s s' v (fun _ => True) view h trivial (fun a c inner _ cell => ?_)
    (fun k c _ closure => ⟨hs.closures k c closure, trivial, trivial, trivial⟩) hs.symbols
  exact ⟨(hs.cells a (Array.getElem?_eq_some_iff.1 cell).1 inner).trans cell, trivial, trivial⟩

theorem same {view view' : View} (h : Shows table global s v view)
    (h' : Shows table global s v view') : view.Same view' := by
  induction h generalizing view' with
  | nil =>
    cases h' with
    | nil => rfl
    | noBindings => trivial
  | num | sym _ | error =>
    cases h'
    rfl
  | @subr serial b =>
    generalize same : b.procedure = p at h'
    cases h' with
    | subr => rw [View.Same, Builtin.procedure_injective same]
  | expr closure own root _ _ _ ihParams ihBody ihLocals =>
    cases h' with
    | expr closure' _ _ params' body' locals' =>
      cases closure.symm.trans closure'
      obtain rfl : _ = _ := ihParams params'
      obtain rfl : _ = _ := ihBody body'
      obtain rfl : _ = _ := ihLocals locals'
      rfl
  | cons inner cell _ _ ihCar ihCdr =>
    cases h' with
    | cons _ cell' car' cdr' =>
      cases cell.symm.trans cell'
      obtain rfl : _ = _ := ihCar car'
      obtain rfl : _ = _ := ihCdr cdr'
      rfl
    | _ => trivial
  | noBindings =>
    cases h' with
    | nil => trivial
    | noBindings => rfl
  | bind inner cell innerPair pair own _ _ ihValue ihOthers =>
    cases h' with
    | bind _ cell' _ pair' _ value' others' =>
      cases cell.symm.trans cell'
      cases pair.symm.trans pair'
      obtain rfl : _ = _ := ihValue value'
      obtain rfl : _ = _ := ihOthers others'
      rfl
    | skip _ cell' _ pair' noSymbol' _ =>
      cases cell.symm.trans cell'
      cases pair.symm.trans pair'
      exact absurd rfl (noSymbol' _)
    | _ => trivial
  | skip inner cell innerPair pair noSymbol _ ihOthers =>
    cases h' with
    | bind _ cell' _ pair' _ _ _ =>
      cases cell.symm.trans cell'
      cases pair.symm.trans pair'
      exact absurd rfl (noSymbol _)
    | skip _ cell' _ pair' _ others' =>
      cases cell.symm.trans cell'
      exact ihOthers others'
    | _ => trivial
  | root =>
    cases h' with
    | root => rfl
    | frame inner _ _ _ => exact absurd rfl inner
    | _ => trivial
  | frame inner cell _ _ ihBindings ihOthers =>
    cases h' with
    | root => exact absurd rfl inner
    | frame _ cell' alist' others' =>
      cases cell.symm.trans cell'
      obtain rfl : _ = _ := ihBindings alist'
      obtain rfl : _ = _ := ihOthers others'
      rfl
    | _ => trivial

theorem value_unique {x y : PureValue} (h : Shows table global s v (.value x))
    (h' : Shows table global s v (.value y)) : x = y := h.same h'

theorem isError_eq {x : PureValue} (h : Shows table global s v (.value x)) :
    v.isError = x.isError := by
  cases h <;> rfl

theorem eq_nil_iff {x : PureValue} (h : Shows table global s v (.value x)) :
    v = .nil ↔ x.isNil = true := by
  cases h <;> simp [PureValue.isNil]

theorem cell?_of_atom {a : PureAtom} (h : Shows table global s v (.value (.atom a))) :
    s.cell? v = none := by
  cases h <;> rfl

theorem car {x : PureValue} (h : Shows table global s v (.value x)) :
    Shows table global s (s.car v) (.value x.car) := by
  cases h with
  | cons _ cell car _ =>
    simp only [Store.car, Store.cell?, cell]
    exact car
  | _ => exact .nil

theorem cdr {x : PureValue} (h : Shows table global s v (.value x)) :
    Shows table global s (s.cdr v) (.value x.cdr) := by
  cases h with
  | cons _ cell _ cdr =>
    simp only [Store.cdr, Store.cell?, cell]
    exact cdr
  | _ => exact .nil

theorem unfolds {x : PureValue} (h : Shows table global s v (.value x)) :
    Unfolds s (fun v a => Shows table global s v (.value (.atom a))) (fun _ => True) v x := by
  induction x generalizing v with
  | atom a => exact .atom h
  | cons x y ihCar ihCdr =>
    cases h with
    | cons _ cell car cdr => exact .cons cell trivial (ihCar car) (ihCdr cdr)

theorem print_eq {x : PureValue} (h : Shows table global s v (.value x)) :
    s.print v = x.written pureSpelling := by
  refine Unfolds.print_eq (fun _ _ => cell?_of_atom) (fun w a hw => ?_) h.unfolds
  cases hw <;> exact ⟨rfl, by simp [pureSpelling]⟩

theorem exists_chain {x : PureValue} (h : Shows table global s v (.value x)) :
    ∃ last cells vs, Chain s last v cells vs ∧ s.cell? last = none ∧
      List.Forall₂ (fun w y => Shows table global s w (.value y)) vs x.spine.1 := by
  induction x generalizing v with
  | atom a => exact ⟨v, [], [], .nil, h.cell?_of_atom, .nil⟩
  | cons x y _ ihCdr =>
    cases h with
    | cons _ cell car cdr =>
      obtain ⟨last, cells, vs, chain, hlast, elements⟩ := ihCdr cdr
      exact ⟨last, _, _, .cons cell chain, hlast, .cons car elements⟩

theorem elements {x : PureValue} (h : Shows table global s v (.value x)) :
    List.Forall₂ (fun w y => Shows table global s w (.value y)) (s.elements v) x.spine.1 := by
  obtain ⟨last, cells, vs, chain, hlast, elements⟩ := h.exists_chain
  rw [chain.elements_eq hlast]
  exact elements

theorem of_chain {cells : List Nat} {vs : List Value} {xs : List PureValue}
    (h : Chain s .nil v cells vs) (inner : ∀ a ∈ cells, a ≠ global)
    (elements : List.Forall₂ (fun w x => Shows table global s w (.value x)) vs xs) :
    Shows table global s v (.value (.ofList .nil xs)) := by
  induction h generalizing xs with
  | nil =>
    cases elements
    exact .nil
  | cons cell _ ih =>
    cases elements with
    | cons first others =>
      exact .cons (inner _ (by simp)) cell first
        (ih (fun a ha => inner a (List.mem_cons_of_mem _ ha)) others)

/-- A chain of pairs shows the bindings of those of their keys that are symbols. -/
theorem of_pairs {cells pairs : List Nat} {entries : List (Value × Value)}
    {bound : List (PureValue × PureValue)} (h : Chain s .nil v cells (pairs.map Value.cons))
    (inner : ∀ a ∈ cells, a ≠ global) (innerPairs : ∀ p ∈ pairs, p ≠ global)
    (hold : List.Forall₂ s.IsPair pairs entries)
    (shows : List.Forall₂ (fun entry x => Shows table global s entry.1 (.value x.1) ∧
      Shows table global s entry.2 (.value x.2)) entries bound) :
    Shows table global s v (.bindings (bound.filterMap bindingOf)) := by
  induction hold generalizing v cells bound with
  | nil =>
    cases h
    cases shows
    exact .noBindings
  | @cons p entry pairs entries pair _ ih =>
    cases h with
    | @cons a _ _ _ _ cell tail =>
      cases shows with
      | @cons _ x _ bound both others =>
        obtain ⟨key, w⟩ := entry
        obtain ⟨x, y⟩ := x
        have ha := inner a (by simp)
        have hp := innerPairs p (by simp)
        have rest := ih tail (fun b hb => inner b (List.mem_cons_of_mem _ hb))
          (fun q hq => innerPairs q (List.mem_cons_of_mem _ hq)) others
        obtain ⟨showsKey, value⟩ := both
        cases showsKey with
        | sym own => exact .bind ha cell hp pair own value rest
        | _ => exact .skip ha cell hp pair (by simp) rest

private theorem findSome?_cons_or {α β : Type} (f : α → Option β) (x : α) (xs : List α) :
    (x :: xs).findSome? f = (f x).or (xs.findSome? f) := by
  rw [List.findSome?_cons]
  cases f x <;> rfl

section lookup

variable {sym : Symbol} (own : s.findSymbol? table sym.name = some sym)
include own

/-- The first pair that binds a symbol holds the first value that is bound to its name. -/
theorem find_binding {bindings : List (String × PureValue)}
    (h : Shows table global s v (.bindings bindings)) : ∃ cells pairs, Chain s .nil v cells pairs ∧
      Option.Rel (fun pair x => Shows table global s (s.cdr pair) (.value x))
        (pairs.find? (s.binds (.sym sym))) (bindings.lookup sym.name) := by
  generalize hview : View.bindings bindings = view at h
  induction h generalizing bindings with
  | noBindings =>
    cases hview
    exact ⟨[], [], .nil, .none⟩
  | @bind a p rest w sym' x bindings' _ cell _ pair own' value _ _ ihOthers =>
    cases hview
    obtain ⟨cells, pairs, chain, found⟩ := ihOthers rfl
    refine ⟨_, _, .cons cell chain, ?_⟩
    have hcdr : s.cdr (.cons p) = w := by simp only [Store.cdr, Store.cell?, pair]
    by_cases hname : sym.name = sym'.name
    · rw [hname] at own
      cases own.symm.trans own'
      have binds : s.binds (.sym sym) (.cons p) = true := by
        simp [Store.binds, Store.cell?, pair]
      simp only [List.find?_cons, binds, List.lookup_cons, beq_self_eq_true]
      exact .some (hcdr ▸ value)
    · have binds : s.binds (.sym sym) (.cons p) = false := by
        simp only [Store.binds, Store.cell?, pair, decide_eq_false_iff_not, Value.sym.injEq]
        exact fun e => hname (e ▸ rfl)
      have hbeq : (sym.name == sym'.name) = false := by simpa using hname
      simp only [List.find?_cons, binds, List.lookup_cons, hbeq]
      exact found
  | @skip a p rest key w bindings' _ cell _ pair noSymbol _ ihOthers =>
    cases hview
    obtain ⟨cells, pairs, chain, found⟩ := ihOthers rfl
    have binds : s.binds (.sym sym) (.cons p) = false := by
      simp only [Store.binds, Store.cell?, pair, decide_eq_false_iff_not]
      exact noSymbol sym
    refine ⟨_, _, .cons cell chain, ?_⟩
    simp only [List.find?_cons, binds]
    exact found
  | _ => cases hview

/-- Looking a symbol up in frames finds the value of its name. -/
theorem findSome_frame {alist : Value} {bindings : List (String × PureValue)} {locals : Locals}
    (root : s.cells[global]? = some ⟨alist, .nil⟩)
    (globals : Shows table global s alist (.bindings bindings))
    (h : Shows table global s v (.frames locals)) : ∃ cells frames, Chain s .nil v cells frames ∧
      Option.Rel (fun pair x => Shows table global s (s.cdr pair) (.value x))
        (frames.findSome? fun frame => (s.elements frame).find? (s.binds (.sym sym)))
        (PocketLisp.lookup locals (.ofBindings bindings) sym.name) := by
  induction locals generalizing v with
  | nil =>
    cases h with
    | root =>
      obtain ⟨cells, pairs, chain, found⟩ := find_binding own globals
      refine ⟨_, _, .cons root .nil, ?_⟩
      rw [lookup_nil, Globals.lookup_ofBindings, List.findSome?_singleton, chain.elements_eq rfl]
      exact found
  | cons bindings' locals ih =>
    cases h with
    | frame _ cell first others =>
      obtain ⟨cells, pairs, chain, found⟩ := find_binding own first
      obtain ⟨cells', frames, chain', found'⟩ := ih others
      refine ⟨_, _, .cons cell chain', ?_⟩
      rw [lookup_cons, findSome?_cons_or, chain.elements_eq rfl]
      exact rel_or found found'

end lookup

end Shows

theorem Unfolds.shows {table global : Nat} {s : Store} {v : Value} {d : Datum}
    (h : Unfolds s (s.IsAtom table) (· ≠ global) v d) :
    Shows table global s v (.value (d.map Atom.toPure)) := by
  induction h with
  | @atom v a ha =>
    cases a with
    | nil =>
      cases ha
      exact .nil
    | num n =>
      obtain ⟨serial, rfl⟩ := ha
      exact .num
    | sym name =>
      obtain ⟨sym, rfl, own⟩ := ha
      obtain rfl := Store.name_of_findSymbol? own
      exact .sym own
    | error message =>
      obtain ⟨serial, rfl⟩ := ha
      exact .error
  | cons cell inner _ _ ihCar ihCdr => exact .cons inner cell ihCar ihCdr

end PocketLisp
