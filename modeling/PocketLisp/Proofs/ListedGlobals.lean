import PocketLisp.Proofs.RepresentedGlobals

/-!
# The order of the globals

The globals of the reference semantics are a map, but the global frame keeps all that was ever bound
in it, the latest first, and what was defined under a key that is no symbol too. What a definition
adds is in front of what was there, and nothing else changes the list.
-/
namespace PocketLisp

/-- A value of the store that is a list of pairs, and what the parts of the pairs show. -/
inductive Lists (table global : Nat) (s : Store) :
    Value → List (PureValue × PureValue) → Prop where
  | nil : Lists table global s .nil []
  | cons {a p : Nat} {rest key v : Value} {x y : PureValue} {es : List (PureValue × PureValue)}
      (inner : a ≠ global) (cell : s.cells[a]? = some ⟨.cons p, rest⟩) (innerPair : p ≠ global)
      (pair : s.cells[p]? = some ⟨key, v⟩) (showsKey : Shows table global s key (.value x))
      (showsValue : Shows table global s v (.value y)) (others : Lists table global s rest es) :
      Lists table global s (.cons a) ((x, y) :: es)

/-- The global frame has these bindings, the latest first. -/
def FrameLists (table global : Nat) (s : Store) (es : List (PureValue × PureValue)) : Prop :=
  ∃ alist, s.cells[global]? = some ⟨alist, .nil⟩ ∧ Lists table global s alist es

/-- The bindings `ds` come in front of those of the global frame. -/
def Enlists (table global : Nat) (ds : List (PureValue × PureValue)) (s s' : Store) : Prop :=
  ∀ es, FrameLists table global s es → FrameLists table global s' (ds ++ es)

section lists

variable {table global : Nat} {s s' s'' : Store} {es ds ds' : List (PureValue × PureValue)}

theorem Lists.grow {v : Value} (h : Lists table global s v es) (hs : GrowsAt global s s') :
    Lists table global s' v es := by
  have cells : ∀ {a : Nat} {c : Cell}, a ≠ global → s.cells[a]? = some c → s'.cells[a]? = some c :=
    fun inner cell => (hs.cells _ (Array.getElem?_eq_some_iff.1 cell).1 inner).trans cell
  induction h with
  | nil => exact .nil
  | cons inner cell innerPair pair showsKey showsValue _ ih =>
    exact .cons inner (cells inner cell) innerPair (cells innerPair pair) (showsKey.grow hs)
      (showsValue.grow hs) ih

theorem Lists.unique {v : Value} (h : Lists table global s v es) (h' : Lists table global s v ds) :
    es = ds := by
  induction h generalizing ds with
  | nil =>
    cases h'
    rfl
  | cons _ cell _ pair showsKey showsValue _ ih =>
    cases h' with
    | cons _ cell' _ pair' showsKey' showsValue' others' =>
      cases cell.symm.trans cell'
      cases pair.symm.trans pair'
      rw [showsKey.value_unique showsKey', showsValue.value_unique showsValue', ih others']

/-- A list of pairs shows the bindings of those of its keys that are symbols. -/
theorem Lists.shows {v : Value} (h : Lists table global s v es) :
    Shows table global s v (.bindings (es.filterMap bindingOf)) := by
  induction h with
  | nil => exact .noBindings
  | cons inner cell innerPair pair showsKey showsValue _ ih =>
    cases showsKey with
    | sym own => exact .bind inner cell innerPair pair own showsValue ih
    | _ => exact .skip inner cell innerPair pair (by simp) ih

theorem FrameLists.represents (h : FrameLists table global s es) (hasTable : table < s.tables.size)
    (rooted : Rooted global s) :
    Represents table global s (.ofBindings (es.filterMap bindingOf)) := by
  obtain ⟨alist, cell, lists⟩ := h
  exact ⟨hasTable, rooted, alist, _, cell, lists.shows, rfl⟩

theorem FrameLists.of_extends (h : FrameLists table global s es) (hs : Extends s s') :
    FrameLists table global s' es := by
  obtain ⟨alist, cell, lists⟩ := h
  exact ⟨alist, hs.cells _ _ cell, lists.grow (hs.growsAt global)⟩

theorem Enlists.of_extends (hs : Extends s s') : Enlists table global [] s s' :=
  fun _ h => h.of_extends hs

theorem Enlists.trans (h : Enlists table global ds s s') (h' : Enlists table global ds' s' s'') :
    Enlists table global (ds' ++ ds) s s'' := by
  intro es lists
  rw [List.append_assoc]
  exact h' _ (h es lists)

theorem Enlists.after (h : Enlists table global ds s' s'') (hs : Extends s s') :
    Enlists table global ds s s'' :=
  fun es lists => h es (lists.of_extends hs)

/-- A definition puts its name and the closure in front of the bindings. -/
theorem Represents.enlists {g : Globals} (h : Represents table global s g) {env : Env}
    {locals : Locals} {name params body f : Value} {x y z : PureValue} {frame : Cell}
    (henv : Holds table global s env locals) (hname : Shows table global s name (.value x))
    (hparams : Shows table global s params (.value y))
    (hbody : Shows table global s body (.value z))
    (function : s.closure params body env = (f, s')) (hframe : s'.cells[global]? = some frame) :
    Enlists table global [(x, .atom (.closure y z locals))] s
      (s'.bind (.cons global) frame.car name f) := by
  rintro es ⟨alist, cell, lists⟩
  have hcells : s'.cells = s.cells := by rw [(Store.closure_eq_iff.1 function).2]
  rw [hcells] at hframe
  cases cell.symm.trans hframe
  obtain ⟨grow, a, p, ha, hp, front, next, pair, closure⟩ :=
    h.defun_cells henv hparams hbody function hframe name
  exact ⟨_, front, .cons ha next hp pair (hname.grow grow) closure (lists.grow grow)⟩

end lists

end PocketLisp
