import PocketLisp.Proofs.LexicalScope
import Mathlib.Logic.Relation

/-!
# What values reach

A value reaches the parts of its cell, or those of its closure and of the environment that the
closure has captured, and what these reach. A realm tells which cells and which environments are of
interest. A value is confined to a realm if all that it reaches is in the store and in the realm,
and is no error. Evaluation in a realm keeps this: what was confined stays so, and the values that
come up are confined or are errors, but no error becomes a part of anything.
-/
namespace PocketLisp

/-- The parts of a value: those of its cell, or those of its closure and the frames that the closure
has captured. -/
def Store.parts (s : Store) : Value → List Value
  | .cons a => s.cells[a]?.elim [] fun c => [c.car, c.cdr]
  | .expr k => s.closures[k]?.elim [] fun c =>
    [c.params, c.body, c.env.frames, c.env.globalFrames]
  | _ => []

def Store.Reaches (s : Store) : Value → Value → Prop :=
  Relation.ReflTransGen fun v w => w ∈ s.parts v

theorem Store.parts_cons {s : Store} {a : Nat} {c : Cell} (cell : s.cells[a]? = some c) :
    s.parts (.cons a) = [c.car, c.cdr] := by
  simp only [parts, cell, Option.elim_some]

theorem Store.parts_expr {s : Store} {k : Nat} {c : Closure} (closure : s.closures[k]? = some c) :
    s.parts (.expr k) = [c.params, c.body, c.env.frames, c.env.globalFrames] := by
  simp only [parts, closure, Option.elim_some]

/-- Which cells, and which environments by their table and their global frames, are of interest. -/
structure Realm where
  cells : Nat → Prop
  envs : Nat → Value → Prop

/-- The value is in the store and in the realm, and is no error. -/
def Realm.Admits (R : Realm) (s : Store) : Value → Prop
  | .cons a => (∃ c, s.cells[a]? = some c) ∧ R.cells a
  | .expr k => ∃ c : Closure, s.closures[k]? = some c ∧ R.envs c.env.table c.env.globalFrames
  | .error _ _ => False
  | _ => True

def Confined (R : Realm) (s : Store) (v : Value) : Prop := ∀ w, s.Reaches v w → R.Admits s w

/-- The environment belongs to the realm, and all that it binds is confined to it. -/
structure Env.ConfinedTo (R : Realm) (s : Store) (env : Env) : Prop where
  own : R.envs env.table env.globalFrames
  frames : Confined R s env.frames
  globalFrames : Confined R s env.globalFrames

/-- An outcome: an error, or a value that is confined. -/
def Yields (R : Realm) (s : Store) (v : Value) : Prop := v.isError = true ∨ Confined R s v

/-- A value is admitted in all stores that have its cell or closure, and its parts are the same. -/
theorem Realm.Admits.congr {R : Realm} {s s' : Store} {v : Value} (h : R.Admits s v)
    (cells : ∀ (a : Nat) (c : Cell), v = .cons a → R.cells a → s.cells[a]? = some c →
      s'.cells[a]? = some c)
    (closures : ∀ (k : Nat) (c : Closure), R.envs c.env.table c.env.globalFrames →
      s.closures[k]? = some c → s'.closures[k]? = some c) :
    R.Admits s' v ∧ s'.parts v = s.parts v := by
  cases v with
  | cons a =>
    obtain ⟨⟨c, cell⟩, inside⟩ := h
    have cell' := cells a c rfl inside cell
    exact ⟨⟨⟨c, cell'⟩, inside⟩, by rw [Store.parts_cons cell, Store.parts_cons cell']⟩
  | expr k =>
    obtain ⟨c, closure, own⟩ := h
    have closure' := closures k c own closure
    exact ⟨⟨c, closure', own⟩, by rw [Store.parts_expr closure, Store.parts_expr closure']⟩
  | _ => exact ⟨h, rfl⟩

namespace Confined
variable {R : Realm} {s s' : Store} {v w : Value}

theorem admits (h : Confined R s v) : R.Admits s v := h v .refl

theorem part (h : Confined R s v) (hw : w ∈ s.parts v) : Confined R s w :=
  fun x hx => h x (.head hw hx)

theorem of_parts (admits : R.Admits s v) (parts : ∀ w ∈ s.parts v, Confined R s w) :
    Confined R s v := by
  intro w hw
  rcases hw.cases_head with rfl | ⟨x, hx, hw⟩
  · exact admits
  · exact parts x hx w hw

/-- Values are confined if they are admitted and their parts are among them. -/
theorem of_closed {P : Value → Prop} (admits : ∀ v, P v → R.Admits s v)
    (parts : ∀ v, P v → ∀ w ∈ s.parts v, P w) (hv : P v) : Confined R s v := by
  intro w hw
  refine admits w ?_
  induction hw with
  | refl => exact hv
  | tail _ hpart ih => exact parts _ ih _ hpart

theorem nil : Confined R s .nil := of_parts trivial (by simp [Store.parts])

theorem num {serial : Nat} {n : Fixnum} : Confined R s (.num serial n) :=
  of_parts trivial (by simp [Store.parts])

theorem sym {x : Symbol} : Confined R s (.sym x) := of_parts trivial (by simp [Store.parts])

theorem subr {serial : Nat} {procedure : Procedure} : Confined R s (.subr serial procedure) :=
  of_parts trivial (by simp [Store.parts])

theorem cons {a : Nat} {c : Cell} (cell : s.cells[a]? = some c) (inside : R.cells a)
    (car : Confined R s c.car) (cdr : Confined R s c.cdr) : Confined R s (.cons a) := by
  refine of_parts ⟨⟨c, cell⟩, inside⟩ ?_
  rw [Store.parts_cons cell]
  simp only [List.forall_mem_cons, List.not_mem_nil, false_implies, implies_true, and_true]
  exact ⟨car, cdr⟩

theorem expr {k : Nat} {c : Closure} (closure : s.closures[k]? = some c)
    (params : Confined R s c.params) (body : Confined R s c.body)
    (env : c.env.ConfinedTo R s) : Confined R s (.expr k) := by
  refine of_parts ⟨c, closure, env.own⟩ ?_
  rw [Store.parts_expr closure]
  simp only [List.forall_mem_cons, List.not_mem_nil, false_implies, implies_true, and_true]
  exact ⟨params, body, env.frames, env.globalFrames⟩

theorem closure {k : Nat} {c : Closure} (h : Confined R s (.expr k))
    (closure : s.closures[k]? = some c) :
    Confined R s c.params ∧ Confined R s c.body ∧ c.env.ConfinedTo R s := by
  have parts := Store.parts_expr closure
  obtain ⟨c', closure', own⟩ := h.admits
  cases closure.symm.trans closure'
  exact ⟨h.part (by simp [parts]), h.part (by simp [parts]), own, h.part (by simp [parts]),
    h.part (by simp [parts])⟩

theorem of_chain {last : Value} {cells : List Nat} {xs : List Value}
    (chain : Chain s last v cells xs) (inside : ∀ a ∈ cells, R.cells a)
    (elements : ∀ x ∈ xs, Confined R s x) (rest : Confined R s last) : Confined R s v := by
  induction chain with
  | nil => exact rest
  | cons cell _ ih =>
    exact cons cell (inside _ (by simp)) (elements _ (by simp))
      (ih (fun a ha => inside a (List.mem_cons_of_mem _ ha))
        fun x hx => elements x (List.mem_cons_of_mem _ hx))

theorem parts_of_cell? (h : Confined R s v) {c : Cell} (hc : s.cell? v = some c) :
    Confined R s c.car ∧ Confined R s c.cdr := by
  obtain ⟨a, rfl, cell⟩ := Store.cell?_eq_some hc
  exact ⟨h.part (by simp [Store.parts_cons cell]), h.part (by simp [Store.parts_cons cell])⟩

theorem car (h : Confined R s v) : Confined R s (s.car v) := by
  cases hc : s.cell? v with
  | none => simpa only [Store.car, hc] using nil
  | some c => simpa only [Store.car, hc] using (h.parts_of_cell? hc).1

theorem cdr (h : Confined R s v) : Confined R s (s.cdr v) := by
  cases hc : s.cell? v with
  | none => simpa only [Store.cdr, hc] using nil
  | some c => simpa only [Store.cdr, hc] using (h.parts_of_cell? hc).2

theorem elements (h : Confined R s v) : ∀ x ∈ s.elements v, Confined R s x := by
  have within : ∀ (fuel : Nat) (v : Value), Confined R s v →
      ∀ x ∈ s.elementsWithin fuel v, Confined R s x := by
    intro fuel
    induction fuel with
    | zero => simp [Store.elementsWithin]
    | succ fuel ih =>
      intro v h
      cases hc : s.cell? v with
      | none => simp [Store.elementsWithin, hc]
      | some c =>
        obtain ⟨first, rest⟩ := h.parts_of_cell? hc
        simp only [Store.elementsWithin, hc]
        exact List.forall_mem_cons.2 ⟨first, ih c.cdr rest⟩
  exact within _ v h

theorem of_findPair? {frames key pair : Value} (h : Confined R s frames)
    (found : s.findPair? frames key = some pair) : Confined R s pair := by
  obtain ⟨frame, hframe, hpair⟩ := List.exists_of_findSome?_eq_some found
  exact (h.elements frame hframe).elements pair (List.mem_of_find?_eq_some hpair)

/-- What is confined stays so if the cells and closures of the realm stay. -/
theorem congr (h : Confined R s v)
    (cells : ∀ (a : Nat) (c : Cell), R.cells a → s.cells[a]? = some c → s'.cells[a]? = some c)
    (closures : ∀ (k : Nat) (c : Closure), R.envs c.env.table c.env.globalFrames →
      s.closures[k]? = some c → s'.closures[k]? = some c) : Confined R s' v := by
  have same : ∀ v, Confined R s v → R.Admits s' v ∧ s'.parts v = s.parts v :=
    fun v h => h.admits.congr (fun a c _ => cells a c) closures
  refine @of_closed R s' v (Confined R s) (fun v h => (same v h).1) (fun v h w hw => ?_) h
  rw [(same v h).2] at hw
  exact h.part hw

/-- What is confined to a realm is confined to a wider one. Only the cells and closures of the store
count. -/
theorem mono {R' : Realm} (h : Confined R s v) (cells : ∀ a < s.cells.size, R.cells a → R'.cells a)
    (envs : ∀ (k : Nat) (c : Closure), s.closures[k]? = some c →
      R.envs c.env.table c.env.globalFrames → R'.envs c.env.table c.env.globalFrames) :
    Confined R' s v := by
  intro w hw
  have admits := h w hw
  cases w with
  | cons a =>
    obtain ⟨⟨c, cell⟩, inside⟩ := admits
    exact ⟨⟨c, cell⟩, cells a (Array.getElem?_eq_some_iff.1 cell).1 inside⟩
  | expr k =>
    obtain ⟨c, closure, own⟩ := admits
    exact ⟨c, closure, envs k c closure own⟩
  | _ => exact admits

theorem grow (h : Confined R s v) (grow : Extends s s') : Confined R s' v :=
  h.congr (fun a c _ => grow.cells a c) (fun k c _ => grow.closures k c)

/-- What is confined stays so when a key is bound in a frame, if the key and its value are
confined. -/
theorem bind {global : Nat} {frame : Cell} {key value : Value} (h : Confined R s v)
    (hglobal : Confined R s (.cons global)) (cell : s.cells[global]? = some frame)
    (hkey : Confined R s key) (hvalue : Confined R s value)
    (fresh : ∀ a, s.cells.size ≤ a → R.cells a) :
    Confined R (s.bind (.cons global) frame.car key value) v := by
  obtain ⟨others, front, next, pair, -⟩ := Store.bind_spec cell key value
  have closures := s.closures_bind (.cons global) frame.car key value
  have same : ∀ w, Confined R s w → w ≠ .cons global →
      R.Admits (s.bind (.cons global) frame.car key value) w ∧
        (s.bind (.cons global) frame.car key value).parts w = s.parts w := by
    intro w hw hne
    refine hw.admits.congr (fun a c ha _ hc => ?_) fun k c _ hc => closures ▸ hc
    refine (others a (Array.getElem?_eq_some_iff.1 hc).1 fun e => hne ?_).trans hc
    rw [ha, e]
  -- The values that were confined, and the two new cells.
  refine @of_closed R _ v (fun w => Confined R s w ∨ w = .cons s.cells.size ∨
    w = .cons (s.cells.size + 1)) (fun w hw => ?_) (fun w hw x hx => ?_) (.inl h)
  · rcases hw with hw | rfl | rfl
    · by_cases hne : w = .cons global
      · subst hne
        exact ⟨⟨_, front⟩, hw.admits.2⟩
      · exact (same w hw hne).1
    · exact ⟨⟨_, pair⟩, fresh _ (Nat.le_refl _)⟩
    · exact ⟨⟨_, next⟩, fresh _ (Nat.le_succ _)⟩
  · rcases hw with hw | rfl | rfl
    · by_cases hne : w = .cons global
      · subst hne
        rw [Store.parts_cons front, List.mem_pair] at hx
        rcases hx with rfl | rfl
        · exact .inr (.inr rfl)
        · exact .inl (hglobal.part (by simp [Store.parts_cons cell]))
      · rw [(same w hw hne).2] at hx
        exact .inl (hw.part hx)
    · rw [Store.parts_cons pair, List.mem_pair] at hx
      rcases hx with rfl | rfl
      · exact .inl hkey
      · exact .inl hvalue
    · rw [Store.parts_cons next, List.mem_pair] at hx
      rcases hx with rfl | rfl
      · exact .inr (.inl rfl)
      · exact .inl (hglobal.part (by simp [Store.parts_cons cell]))

end Confined

theorem exists_of_mem_forall₂ {α β : Type} {r : α → β → Prop} {as : List α} {bs : List β}
    (h : List.Forall₂ r as bs) {a : α} (ha : a ∈ as) : ∃ b ∈ bs, r a b := by
  induction h with
  | nil => simp at ha
  | cons first _ ih =>
    rcases List.mem_cons.1 ha with rfl | ha
    · exact ⟨_, .head _, first⟩
    · obtain ⟨b, hb, hab⟩ := ih ha
      exact ⟨b, .tail _ hb, hab⟩

theorem Env.ConfinedTo.keep {R : Realm} {s s' : Store} {env : Env} (h : env.ConfinedTo R s)
    (keep : ∀ v, Confined R s v → Confined R s' v) : env.ConfinedTo R s' :=
  ⟨h.own, keep _ h.frames, keep _ h.globalFrames⟩

theorem Yields.keep {R : Realm} {s s' : Store} {v : Value} (h : Yields R s v)
    (keep : ∀ v, Confined R s v → Confined R s' v) : Yields R s' v :=
  h.imp_right (keep v)

theorem Yields.confined {R : Realm} {s : Store} {v : Value} (h : Yields R s v)
    (noError : v.isError = false) : Confined R s v := by
  rcases h with error | h
  · rw [noError] at error
    cases error
  · exact h

theorem Env.ConfinedTo.extend {R : Realm} {s : Store} {e : Env} {params args : Value}
    (h : e.ConfinedTo R s) (hparams : Confined R s params) (hargs : Confined R s args)
    (fresh : ∀ a, s.cells.size ≤ a → R.cells a) :
    (s.extend e params args).1.ConfinedTo R (s.extend e params args).2 := by
  obtain ⟨growZip, cells, pairs, chain, new, newPairs, hold⟩ := s.zip_chain params args
  have growCons := Store.allocates_cons (s.zip params args).2 (s.zip params args).1 e.frames
  have growInner := ((s.zip params args).2.cons (s.zip params args).1 e.frames).2.allocates_newInner
    ((s.zip params args).2.cons (s.zip params args).1 e.frames).1 e
  have growRest := (growCons.trans growInner).toExtends
  have grow := growZip.toExtends.trans growRest
  have frame : Confined R (s.zip params args).2 (s.zip params args).1 := by
    refine .of_chain chain (fun a ha => fresh a (new a ha).1) (fun x hx => ?_) .nil
    obtain ⟨p, hp, rfl⟩ := List.mem_map.1 hx
    obtain ⟨entry, hentry, pair⟩ := exists_of_mem_forall₂ hold hp
    obtain ⟨hkey, hvalue⟩ := List.of_mem_zip hentry
    exact .cons pair (fresh p (newPairs p hp).1)
      ((hparams.elements _ hkey).grow growZip.toExtends)
      ((hargs.elements _ hvalue).grow growZip.toExtends)
  refine ⟨h.own, ?_, h.globalFrames.grow grow⟩
  exact .cons (growInner.toExtends.cells _ _ (Store.getElem?_cons_self _ _ _))
    (fresh _ growZip.size_le) (frame.grow growRest) (h.frames.grow grow)

def Goal.ConfinedTo (R : Realm) (s : Store) : Goal → Prop
  | .eval form env => Confined R s form ∧ env.ConfinedTo R s
  | .args done forms env => (∀ v ∈ done, Confined R s v) ∧ Confined R s forms ∧ env.ConfinedTo R s
  | .body last forms env => Yields R s last ∧ Confined R s forms ∧ env.ConfinedTo R s
  | .apply f values => Yields R s f ∧ Yields R s values

def Waiting.ConfinedTo (R : Realm) (s : Store) : Waiting → Prop
  | .test args env => Confined R s args ∧ env.ConfinedTo R s
  | .function args env => Confined R s args ∧ env.ConfinedTo R s
  | .arguments f => Yields R s f
  | .argument done a env => (∀ v ∈ done, Confined R s v) ∧ Confined R s (.cons a) ∧
    env.ConfinedTo R s
  | .form a env => Confined R s (.cons a) ∧ env.ConfinedTo R s

def Moment.ConfinedTo (R : Realm) (m : Moment) : Prop :=
  match m.stage with
  | .idle => True
  | .ask g w => g.ConfinedTo R m.store ∧ ∀ x ∈ w, x.ConfinedTo R m.store
  | .give v w => Yields R m.store v ∧ ∀ x ∈ w, x.ConfinedTo R m.store

section steps

variable {R : Realm} {s s' : Store}

theorem Waiting.ConfinedTo.keep {x : Waiting} (h : x.ConfinedTo R s)
    (keep : ∀ v, Confined R s v → Confined R s' v) : x.ConfinedTo R s' := by
  cases x with
  | test _ _ => exact ⟨keep _ h.1, h.2.keep keep⟩
  | function _ _ => exact ⟨keep _ h.1, h.2.keep keep⟩
  | arguments _ => exact Yields.keep h keep
  | argument _ _ _ => exact ⟨fun v hv => keep v (h.1 v hv), keep _ h.2.1, h.2.2.keep keep⟩
  | form _ _ => exact ⟨keep _ h.1, h.2.keep keep⟩

theorem Moment.ConfinedTo.envs {m : Moment} (h : m.ConfinedTo R) :
    ∀ e ∈ m.stage.envs, e.ConfinedTo R m.store := by
  have waiting : ∀ {w : List Waiting} {s : Store}, (∀ x ∈ w, x.ConfinedTo R s) →
      ∀ e ∈ w.flatMap Waiting.envs, e.ConfinedTo R s := by
    intro w s hw e he
    obtain ⟨x, hx, he⟩ := List.mem_flatMap.1 he
    have hx := hw x hx
    cases x with
    | test _ _ => exact List.mem_singleton.1 he ▸ hx.2
    | function _ _ => exact List.mem_singleton.1 he ▸ hx.2
    | arguments _ => exact absurd he List.not_mem_nil
    | argument _ _ _ => exact List.mem_singleton.1 he ▸ hx.2.2
    | form _ _ => exact List.mem_singleton.1 he ▸ hx.2
  obtain ⟨stage, s⟩ := m
  cases stage with
  | idle => exact List.forall_mem_nil _
  | give v w => exact waiting h.2
  | ask g w =>
    refine List.forall_mem_append.2 ⟨fun e he => ?_, waiting h.2⟩
    have hg := h.1
    cases g with
    | eval _ _ => exact List.mem_singleton.1 he ▸ hg.2
    | args _ _ _ => exact List.mem_singleton.1 he ▸ hg.2.2
    | body _ _ _ => exact List.mem_singleton.1 he ▸ hg.2.2
    | apply _ _ => exact absurd he List.not_mem_nil

/-- The head and the arguments of a form, after the head has been compared to the keywords. -/
theorem Confined.keyword {a table : Nat} {op args : Value} {k : Option Keyword}
    (h : Confined R s (.cons a)) (cell : s.cells[a]? = some ⟨op, args⟩)
    (head : s.keyword table op = (k, s')) : (∀ v, Confined R s v → Confined R s' v) ∧
      Confined R s' op ∧ Confined R s' args := by
  have keep : ∀ v, Confined R s v → Confined R s' v :=
    fun v hv => hv.grow (addsData_of_keyword head).toExtends
  obtain ⟨hop, hargs⟩ := h.parts_of_cell? cell
  exact ⟨keep, keep _ hop, keep _ hargs⟩

theorem Confined.newClosure {params body f : Value} {env : Env} (hparams : Confined R s params)
    (hbody : Confined R s body) (henv : env.ConfinedTo R s)
    (function : s.closure params body env = (f, s')) :
    (∀ v, Confined R s v → Confined R s' v) ∧ Confined R s' f := by
  have grow := s.extends_closure params body env
  obtain ⟨rfl, rfl⟩ := Store.closure_eq_iff.1 function
  have keep : ∀ v, Confined R s v → Confined R _ v := fun v hv => hv.grow grow
  exact ⟨keep, .expr Array.getElem?_push_size (keep _ hparams) (keep _ hbody) (henv.keep keep)⟩

theorem Confined.branch {v args : Value} (h : Confined R s args) :
    Confined R s (s.branch v args) := by
  unfold Store.branch
  split
  · exact h.cdr.cdr.car
  · exact h.cdr.car

theorem Confined.call {procedure : Procedure} {args : Value} (h : Confined R s args)
    (fresh : ∀ a, s.cells.size ≤ a → R.cells a) :
    Confined R (s.call procedure args).2 (s.call procedure args).1 := by
  cases procedure with
  | car => exact h.car.car
  | cdr => exact h.car.cdr
  | cons =>
    have grow := (s.allocates_cons (s.car args) (s.car (s.cdr args))).toExtends
    exact .cons (Store.getElem?_cons_self s _ _) (fresh _ (Nat.le_refl _)) (h.car.grow grow)
      (h.cdr.car.grow grow)
  | host _ => exact .nil

theorem Confined.ofList {vs : List Value} (h : ∀ v ∈ vs, Confined R s v)
    (fresh : ∀ a, s.cells.size ≤ a → R.cells a) : Confined R (s.ofList vs).2 (s.ofList vs).1 := by
  obtain ⟨grow, cells, chain, new⟩ := s.ofList_chain vs
  exact .of_chain chain (fun a ha => fresh a (new a ha).1)
    (fun v hv => (h v hv).grow grow.toExtends) .nil

/-- A definition binds its name to a new closure in the global frame of its environment. -/
theorem Confined.defun {args f : Value} {env : Env} {frame : Cell} (h : Confined R s args)
    (henv : env.ConfinedTo R s)
    (function : s.closure (s.car (s.cdr args)) (s.cdr (s.cdr args)) env = (f, s'))
    (global : s'.cell? env.globalFrames = some frame)
    (fresh : ∀ a, s.cells.size ≤ a → R.cells a) :
    (∀ v, Confined R s v →
      Confined R (s'.bind env.globalFrames frame.car (s.car args) f) v) ∧
    Confined R (s'.bind env.globalFrames frame.car (s.car args) f) (s.car args) := by
  obtain ⟨keep, closure⟩ := h.cdr.car.newClosure h.cdr.cdr henv function
  have same : s'.cells = s.cells := by rw [(Store.closure_eq_iff.1 function).2]
  have hglobal := keep _ henv.globalFrames
  obtain ⟨g, hg, hframe⟩ := Store.cell?_eq_some global
  rw [hg] at hglobal ⊢
  have bound : ∀ v, Confined R s' v →
      Confined R (s'.bind (.cons g) frame.car (s.car args) f) v :=
    fun v hv => hv.bind hglobal hframe (keep _ h.car) closure fun a ha => fresh a (same ▸ ha)
  exact ⟨fun v hv => bound v (keep v hv), bound _ (keep _ h.car)⟩

/-- A step keeps what is confined, and goes on with what is confined. -/
theorem Step.confined {m m' : Moment} {ds : List Defined} (h : Step m ds m')
    (hm : m.ConfinedTo R) (fresh : ∀ a, m.store.cells.size ≤ a → R.cells a) :
    (∀ v, Confined R m.store v → Confined R m'.store v) ∧ m'.ConfinedTo R := by
  have allocates : ∀ {s s' : Store}, Allocates s s' → ∀ v, Confined R s v → Confined R s' v :=
    fun grow v hv => hv.grow grow.toExtends
  have all : ∀ {s s' : Store} {w : List Waiting}, (∀ v, Confined R s v → Confined R s' v) →
      (∀ x ∈ w, x.ConfinedTo R s) → ∀ x ∈ w, x.ConfinedTo R s' :=
    fun keep hw x hx => (hw x hx).keep keep
  cases h with
  | bound found =>
    obtain ⟨⟨-, henv⟩, hw⟩ := hm
    exact ⟨fun _ => id, .inr (henv.frames.of_findPair? found).cdr, hw⟩
  | @unbound sym env w s _ =>
    have keep := allocates (s.allocates_error (sym.name ++ " has no value"))
    exact ⟨keep, .inl rfl, all keep hm.2⟩
  | self _ _ =>
    obtain ⟨⟨form, -⟩, hw⟩ := hm
    exact ⟨fun _ => id, .inr form, hw⟩
  | quote cell head =>
    obtain ⟨⟨form, -⟩, hw⟩ := hm
    obtain ⟨keep, -, args⟩ := form.keyword cell head
    exact ⟨keep, .inr args.car, all keep hw⟩
  | test cell head =>
    obtain ⟨⟨form, henv⟩, hw⟩ := hm
    obtain ⟨keep, -, args⟩ := form.keyword cell head
    have env := henv.keep keep
    exact ⟨keep, ⟨args.car, env⟩, List.forall_mem_cons.2 ⟨⟨args, env⟩, all keep hw⟩⟩
  | testError error => exact ⟨fun _ => id, .inl error, (List.forall_mem_cons.1 hm.2).2⟩
  | branch _ =>
    obtain ⟨⟨args, env⟩, hw⟩ := List.forall_mem_cons.1 hm.2
    exact ⟨fun _ => id, ⟨args.branch, env⟩, hw⟩
  | lambda cell head =>
    obtain ⟨⟨form, henv⟩, hw⟩ := hm
    obtain ⟨keep, -, args⟩ := form.keyword cell head
    obtain ⟨keep', closure⟩ := args.car.newClosure args.cdr (henv.keep keep) rfl
    have keepBoth := fun v hv => keep' v (keep v hv)
    exact ⟨keepBoth, .inr closure, all keepBoth hw⟩
  | @defun a k op args env w s s₁ s₂ frame cell head function global =>
    obtain ⟨⟨form, henv⟩, hw⟩ := hm
    obtain ⟨keep, -, hargs⟩ := form.keyword cell head
    have grow := (addsData_of_keyword head).size_le
    obtain ⟨keep', name⟩ := hargs.defun (henv.keep keep) function global
      fun a ha => fresh a (Nat.le_trans grow ha)
    have keepBoth := fun v hv => keep' v (keep v hv)
    exact ⟨keepBoth, .inr name, all keepBoth hw⟩
  | function cell head =>
    obtain ⟨⟨form, henv⟩, hw⟩ := hm
    obtain ⟨keep, op, args⟩ := form.keyword cell head
    have env := henv.keep keep
    exact ⟨keep, ⟨op, env⟩, List.forall_mem_cons.2 ⟨⟨args, env⟩, all keep hw⟩⟩
  | arguments =>
    obtain ⟨hf, hw⟩ := hm
    obtain ⟨⟨args, env⟩, hw⟩ := List.forall_mem_cons.1 hw
    exact ⟨fun _ => id, ⟨by simp, args, env⟩, List.forall_mem_cons.2 ⟨hf, hw⟩⟩
  | application =>
    obtain ⟨hvalues, hw⟩ := hm
    obtain ⟨hf, hw⟩ := List.forall_mem_cons.1 hw
    exact ⟨fun _ => id, ⟨hf, hvalues⟩, hw⟩
  | @argsEnd done forms env w s _ =>
    obtain ⟨⟨hdone, -⟩, hw⟩ := hm
    have keep := allocates (s.ofList_chain done.reverse).1
    have values := Confined.ofList (fun v hv => hdone v (List.mem_reverse.1 hv)) fresh
    exact ⟨keep, .inr values, all keep hw⟩
  | argument cell =>
    obtain ⟨⟨hdone, forms, env⟩, hw⟩ := hm
    obtain ⟨form, -⟩ := forms.parts_of_cell? cell
    exact ⟨fun _ => id, ⟨form, env⟩, List.forall_mem_cons.2 ⟨⟨hdone, forms, env⟩, hw⟩⟩
  | argsError error => exact ⟨fun _ => id, .inl error, (List.forall_mem_cons.1 hm.2).2⟩
  | argsNext noError =>
    obtain ⟨hv, hw⟩ := hm
    obtain ⟨⟨hdone, forms, env⟩, hw⟩ := List.forall_mem_cons.1 hw
    have hdone' := List.forall_mem_cons.2 ⟨hv.confined noError, hdone⟩
    exact ⟨fun _ => id, ⟨hdone', forms.cdr, env⟩, hw⟩
  | bodyEnd _ => exact ⟨fun _ => id, hm.1.1, hm.2⟩
  | form cell =>
    obtain ⟨⟨-, forms, env⟩, hw⟩ := hm
    obtain ⟨form, -⟩ := forms.parts_of_cell? cell
    exact ⟨fun _ => id, ⟨form, env⟩, List.forall_mem_cons.2 ⟨⟨forms, env⟩, hw⟩⟩
  | bodyNext =>
    obtain ⟨hv, hw⟩ := hm
    obtain ⟨⟨forms, env⟩, hw⟩ := List.forall_mem_cons.1 hw
    exact ⟨fun _ => id, ⟨hv, forms.cdr, env⟩, hw⟩
  | applyError error => exact ⟨fun _ => id, .inl error, hm.2⟩
  | applyArgsError _ error => exact ⟨fun _ => id, .inl error, hm.2⟩
  | @applySubr serial procedure args w s noError =>
    obtain ⟨⟨-, hargs⟩, hw⟩ := hm
    have keep := allocates (s.allocates_call procedure args)
    exact ⟨keep, .inr ((hargs.confined noError).call fresh), all keep hw⟩
  | @applyClosure k c args env w s s₁ noError closure frame =>
    obtain ⟨⟨hf, hargs⟩, hw⟩ := hm
    obtain ⟨params, body, henv⟩ := (hf.confined rfl).closure closure
    have keep := allocates (s.allocates_extend c.env c.params args)
    have henv' := henv.extend params (hargs.confined noError) fresh
    rw [frame] at keep henv'
    exact ⟨keep, ⟨.inr .nil, keep _ body, henv'⟩, all keep hw⟩
  | @applyOther f args w s _ _ _ _ =>
    have keep := allocates (s.allocates_error (s.print f ++ " is not function"))
    exact ⟨keep, .inl rfl, all keep hm.2⟩

end steps

theorem Store.size_bind (s : Store) (frames bindings key value : Value) :
    (s.bind frames bindings key value).cells.size = s.cells.size + 2 := by
  rw [bind, (relinks_setCar _ _ _).size, size_cons, size_cons]

theorem Effect.size_le {m : Moment} {ds : List Defined} {s : Store} (h : Effect m ds s) :
    m.store.cells.size ≤ s.cells.size := by
  cases h with
  | data adds => exact adds.size_le
  | closure adds _ _ _ => exact adds.size_le
  | define adds _ function _ =>
    obtain ⟨-, rfl⟩ := Store.closure_eq_iff.1 function
    rw [Store.size_bind]
    exact Nat.le_succ_of_le (Nat.le_succ_of_le adds.size_le)

/-- An evaluation keeps what is confined, and goes on with what is confined. -/
theorem Course.confined {R : Realm} {m m' : Moment} {ds : List Defined} (h : Course Step m ds m')
    (hm : m.ConfinedTo R) (fresh : ∀ a, m.store.cells.size ≤ a → R.cells a) :
    (∀ v, Confined R m.store v → Confined R m'.store v) ∧ m'.ConfinedTo R ∧
      m.store.cells.size ≤ m'.store.cells.size := by
  induction h with
  | refl => exact ⟨fun _ => id, hm, Nat.le_refl _⟩
  | next _ last ih =>
    obtain ⟨keep, confined, size⟩ := ih
    obtain ⟨keep', confined'⟩ := last.confined confined fun a ha => fresh a (Nat.le_trans size ha)
    exact ⟨fun v hv => keep' v (keep v hv), confined', Nat.le_trans size last.effect.size_le⟩

/-- What answers a goal of confined values is an error or is confined, and what was confined stays
so. -/
theorem Answers.confined {R : Realm} {g : Goal} {s s' : Store} {v : Value} (h : Answers g s v s')
    (hg : g.ConfinedTo R s) (fresh : ∀ a, s.cells.size ≤ a → R.cells a) :
    (∀ x, Confined R s x → Confined R s' x) ∧ Yields R s' v ∧ s.cells.size ≤ s'.cells.size := by
  obtain ⟨ds, course⟩ := h.course
  obtain ⟨keep, ⟨value, -⟩, size⟩ := (course []).confined ⟨hg, by simp⟩ fresh
  exact ⟨keep, value, size⟩

end PocketLisp
