import PocketLisp.Proofs.EvaluationMoments
import PocketLisp.Proofs.Sessions
import Mathlib.Data.List.Find

/-!
# Lexical scope

The frames of every environment of a session are lists of pairs and end in the one global frame.
Between two moments, the pairs of the other frames stay what they are, and the global frame gets a
pair in front for each definition that is carried out. So a name that is bound locally keeps its
pair, and any other name has the closure of its latest definition, or its old pair if there is none.
-/
namespace PocketLisp

/-- The first pair that binds the key in the frames before the last one. -/
def Store.findLocal? (s : Store) (frames key : Value) : Option Value :=
  (s.elements frames).dropLast.findSome? (fun frame => (s.elements frame).find? (s.binds key))

/-- A list of pairs. Neither the list nor a pair goes through the cell of the global frame. -/
def IsAlist (global : Nat) (s : Store) (v : Value) : Prop :=
  ∃ cells pairs, Chain s .nil v cells pairs ∧ (∀ a ∈ cells, a ≠ global) ∧
    ∀ x ∈ pairs, ∃ p c, x = .cons p ∧ p ≠ global ∧ s.cells[p]? = some c

/-- Frames that are lists of pairs, and the global frame at their end. -/
inductive Framed (global : Nat) (s : Store) : Value → Prop where
  | root : Framed global s (.cons global)
  | frame {a : Nat} {first rest : Value} (inner : a ≠ global)
      (cell : s.cells[a]? = some ⟨first, rest⟩) (alist : IsAlist global s first)
      (others : Framed global s rest) : Framed global s (.cons a)

/-- The bindings `new` are the bindings `old` with those of the definitions in front. -/
inductive Prepends (global : Nat) (s : Store) (old : Value) : List Defined → Value → Prop where
  | same : Prepends global s old [] old
  | more {a p : Nat} {d : Defined} {ds : List Defined} {new : Value} (inner : a ≠ global)
      (cell : s.cells[a]? = some ⟨.cons p, new⟩) (innerPair : p ≠ global)
      (pair : s.cells[p]? = some ⟨d.name, .expr d.place⟩)
      (closure : s.closures[d.place]? = some d.closure) (earlier : Prepends global s old ds new) :
      Prepends global s old (d :: ds) (.cons a)

/-- The second store is the first one with additions, and with the given definitions in the global
frame. -/
structure GrowsBy (global : Nat) (ds : List Defined) (s s' : Store) : Prop
    extends GrowsAt global s s' where
  defined : ∀ c : Cell, s.cells[global]? = some c →
    ∃ new, s'.cells[global]? = some ⟨new, c.cdr⟩ ∧ Prepends global s' c.car ds new

/-- What becomes of a key between two stores, if `ds` are the definitions in between, the latest
first. If one of the frames before the global one binds it, it keeps its pair and its value. If not,
it has the closure of its latest definition, and if there is none, it keeps its pair and its value,
or has none. -/
structure LookupKept (env : Env) (key : Value) (ds : List Defined) (s s' : Store) : Prop where
  inner : ∀ pair, s.findLocal? env.frames key = some pair →
    env.find? key s = .ok (some pair) s ∧ env.find? key s' = .ok (some pair) s' ∧
      s'.cdr pair = s.cdr pair
  defined : s.findLocal? env.frames key = none → ∀ d, ds.find? (fun d => d.name = key) = some d →
    env.get key s' = .ok (.expr d.place) s' ∧ s'.closures[d.place]? = some d.closure
  same : s.findLocal? env.frames key = none → ds.find? (fun d => d.name = key) = none →
    ∃ found, env.find? key s = .ok found s ∧ env.find? key s' = .ok found s' ∧
      ∀ pair, found = some pair → s'.cdr pair = s.cdr pair

theorem findSome?_congr {α β : Type} {f g : α → Option β} {l : List α}
    (h : ∀ x ∈ l, f x = g x) : l.findSome? f = l.findSome? g := by
  induction l with
  | nil => rfl
  | cons x l ih =>
    rw [List.findSome?_cons, List.findSome?_cons, h x (by simp),
      ih fun y hy => h y (List.mem_cons_of_mem x hy)]

section growth

variable {global : Nat} {s t u : Store} {v : Value} {ds ds' : List Defined}

theorem GrowsAt.keep (h : GrowsAt global s t) {a : Nat} {c : Cell} (inner : a ≠ global)
    (cell : s.cells[a]? = some c) : t.cells[a]? = some c :=
  (h.cells a (Array.getElem?_eq_some_iff.1 cell).1 inner).trans cell

theorem IsAlist.grow (h : IsAlist global s v) (grow : GrowsAt global s t) :
    IsAlist global t v := by
  obtain ⟨cells, pairs, chain, inner, hold⟩ := h
  refine ⟨cells, pairs, chain.congr fun a ha => ?_, inner, fun x hx => ?_⟩
  · exact grow.cells a (chain.lt_size a ha) (inner a ha)
  · obtain ⟨p, c, rfl, hp, cell⟩ := hold x hx
    exact ⟨p, c, rfl, hp, grow.keep hp cell⟩

theorem IsAlist.find?_eq (h : IsAlist global s v) (grow : GrowsAt global s t) (key : Value) :
    (t.elements v).find? (t.binds key) = (s.elements v).find? (s.binds key) ∧
      ∀ x ∈ s.elements v, t.cell? x = s.cell? x := by
  obtain ⟨cells, pairs, chain, inner, hold⟩ := h
  have chain' : Chain t .nil v cells pairs :=
    chain.congr fun a ha => grow.cells a (chain.lt_size a ha) (inner a ha)
  have same : ∀ x ∈ pairs, t.cell? x = s.cell? x := by
    intro x hx
    obtain ⟨p, c, rfl, hp, cell⟩ := hold x hx
    rw [Store.cell?, Store.cell?, cell]
    exact grow.keep hp cell
  rw [chain.elements_eq rfl, chain'.elements_eq rfl]
  refine ⟨List.find?_congr fun x hx => ?_, same⟩
  rw [Store.binds, Store.binds, same x hx]

theorem Framed.grow (h : Framed global s v) (grow : GrowsAt global s t) : Framed global t v := by
  induction h with
  | root => exact .root
  | frame inner cell alist _ ih => exact .frame inner (grow.keep inner cell) (alist.grow grow) ih

/-- All stores that a store grows to have the same frames before the global one. -/
theorem Framed.exists_frames (h : Framed global s v) : ∃ cells frames,
    (∀ f ∈ frames, IsAlist global s f) ∧ ∀ t alist, GrowsAt global s t →
      t.cells[global]? = some ⟨alist, .nil⟩ → Chain t .nil v cells (frames ++ [alist]) := by
  induction h with
  | root => exact ⟨_, [], by simp, fun t alist _ root => .cons root .nil⟩
  | @frame a first rest inner cell alist _ ih =>
    obtain ⟨cells, frames, alists, chain⟩ := ih
    refine ⟨a :: cells, first :: frames, List.forall_mem_cons.2 ⟨alist, alists⟩, ?_⟩
    intro t last grow root
    exact .cons (grow.keep inner cell) (chain t last grow root)

/-- A key is looked up in the other frames first, which stay the same, and then in the global
one. -/
theorem Framed.findPair?_eq (h : Framed global s v) (grow : GrowsAt global s t) {last : Value}
    (root : t.cells[global]? = some ⟨last, .nil⟩) {alist : Value}
    (root' : s.cells[global]? = some ⟨alist, .nil⟩) (key : Value) :
    t.findPair? v key = (s.findLocal? v key).or ((t.elements last).find? (t.binds key)) ∧
      ∀ pair, s.findLocal? v key = some pair → t.cell? pair = s.cell? pair := by
  obtain ⟨cells, frames, alists, chain⟩ := h.exists_frames
  have hs := (chain s alist (.refl global s) root').elements_eq rfl
  have ht := (chain t last grow root).elements_eq rfl
  have same : frames.findSome? (fun frame => (t.elements frame).find? (t.binds key)) =
      frames.findSome? (fun frame => (s.elements frame).find? (s.binds key)) :=
    findSome?_congr fun f hf => ((alists f hf).find?_eq grow key).1
  rw [Store.findPair?, Store.findLocal?, hs, ht, List.dropLast_concat, List.findSome?_append, same]
  refine ⟨?_, fun pair hpair => ?_⟩
  · simp only [List.findSome?_singleton]
  · obtain ⟨f, hf, found⟩ := List.exists_of_findSome?_eq_some hpair
    exact ((alists f hf).find?_eq grow key).2 pair (List.mem_of_find?_eq_some found)

theorem Prepends.grow {old new : Value} (h : Prepends global s old ds new)
    (grow : GrowsAt global s t) : Prepends global t old ds new := by
  induction h with
  | same => exact .same
  | more inner cell innerPair pair closure _ ih =>
    exact .more inner (grow.keep inner cell) innerPair (grow.keep innerPair pair)
      (grow.closures _ _ closure) ih

theorem Prepends.append {old mid new : Value} (h : Prepends global s mid ds' new)
    (h' : Prepends global s old ds mid) : Prepends global s old (ds' ++ ds) new := by
  induction h with
  | same => exact h'
  | more inner cell innerPair pair closure _ ih =>
    exact .more inner cell innerPair pair closure ih

theorem Prepends.closure_of_mem {old new : Value} (h : Prepends global s old ds new) {d : Defined}
    (hd : d ∈ ds) : s.closures[d.place]? = some d.closure := by
  induction h with
  | same => simp at hd
  | more _ _ _ _ closure _ ih =>
    rcases List.mem_cons.1 hd with rfl | hd
    · exact closure
    · exact ih hd

theorem Prepends.isAlist {old new : Value} (h : Prepends global s old ds new)
    (hold : IsAlist global s old) : IsAlist global s new := by
  induction h with
  | same => exact hold
  | more inner cell innerPair pair _ _ ih =>
    obtain ⟨cells, pairs, chain, inners, hold⟩ := ih
    exact ⟨_, _, .cons cell chain, List.forall_mem_cons.2 ⟨inner, inners⟩,
      List.forall_mem_cons.2 ⟨⟨_, _, rfl, innerPair, pair⟩, hold⟩⟩

theorem Prepends.exists_chain {old new : Value} {cells : List Nat} {pairs : List Value}
    (h : Prepends global s old ds new) (chain : Chain s .nil old cells pairs) :
    ∃ cells' pairs', Chain s .nil new cells' pairs' ∧
      cells'.length = ds.length + cells.length := by
  induction h with
  | same => exact ⟨cells, pairs, chain, by simp⟩
  | more _ cell _ _ _ _ ih =>
    obtain ⟨cells', pairs', chain', length⟩ := ih
    exact ⟨_, _, .cons cell chain', by simp only [List.length_cons, length]; omega⟩

theorem Prepends.eq_of_length_eq {old new : Value} (h : Prepends global s old ds new)
    (h' : Prepends global s old ds' new) (length : ds.length = ds'.length) : ds = ds' := by
  induction h generalizing ds' with
  | same => exact (List.length_eq_zero_iff.1 length.symm).symm
  | @more a p d ds new _ cell _ pair closure _ ih =>
    cases h' with
    | same => cases length
    | @more _ p' d' ds' new' _ cell' _ pair' closure' earlier' =>
      cases cell.symm.trans cell'
      obtain ⟨name, place, c⟩ := d
      obtain ⟨name', place', c'⟩ := d'
      cases pair.symm.trans pair'
      cases closure.symm.trans closure'
      rw [ih earlier' (Nat.succ.inj length)]

/-- The bindings before and after tell the definitions in between. -/
theorem Prepends.unique {old new : Value} (h : Prepends global s old ds new)
    (h' : Prepends global s old ds' new) (hold : IsAlist global s old) : ds = ds' := by
  obtain ⟨cells, pairs, chain, -⟩ := hold
  obtain ⟨cells₁, pairs₁, chain₁, length₁⟩ := h.exists_chain chain
  obtain ⟨cells₂, pairs₂, chain₂, length₂⟩ := h'.exists_chain chain
  obtain ⟨rfl, -⟩ := chain₁.unique rfl chain₂
  exact h.eq_of_length_eq h' (by omega)

/-- In front of old bindings the latest definition of a key is found, if there is one. -/
theorem Prepends.find?_eq {old new : Value} (h : Prepends global s old ds new)
    (hold : IsAlist global s old) (key : Value) :
    match ds.find? (fun d => d.name = key) with
    | some d => ∃ pair, (s.elements new).find? (s.binds key) = some pair ∧
        s.cdr pair = .expr d.place
    | none => (s.elements new).find? (s.binds key) = (s.elements old).find? (s.binds key) := by
  induction h with
  | same => rfl
  | @more a p d ds new inner cell innerPair pair closure earlier ih =>
    obtain ⟨cells, pairs, chain, -⟩ := earlier.isAlist hold
    have hnew : s.elements (.cons a) = .cons p :: s.elements new := by
      rw [chain.elements_eq rfl]
      exact (Chain.cons cell chain).elements_eq rfl
    have binds : s.binds key (.cons p) = decide (d.name = key) := by
      rw [Store.binds, Store.cell?, pair]
    by_cases hd : d.name = key
    · simp only [List.find?_cons, hd, decide_true]
      refine ⟨.cons p, ?_, ?_⟩
      · simp [hnew, binds, hd]
      · rw [Store.cdr, Store.cell?, pair]
    · simpa [hnew, List.find?_cons, binds, hd] using ih

end growth

namespace GrowsBy
variable {global : Nat} {s t u : Store} {ds ds' : List Defined}

theorem of_extends (h : Extends s t) : GrowsBy global [] s t where
  toGrowsAt := h.growsAt global
  defined c hc := ⟨c.car, h.cells global c hc, .same⟩

theorem trans (h : GrowsBy global ds s t) (h' : GrowsBy global ds' t u)
    (hglobal : global < s.cells.size) : GrowsBy global (ds' ++ ds) s u where
  toGrowsAt := h.toGrowsAt.trans h'.toGrowsAt hglobal
  defined c hc := by
    obtain ⟨mid, hmid, first⟩ := h.defined c hc
    obtain ⟨new, hnew, second⟩ := h'.defined _ hmid
    exact ⟨new, hnew, second.append (first.grow h'.toGrowsAt)⟩

theorem defun {params body name : Value} {k : Nat} {env : Env} {frame : Cell}
    (function : s.closure params body env = (.expr k, t))
    (hframe : t.cells[global]? = some frame) :
    GrowsBy global [⟨name, k, ⟨params, body, env⟩⟩] s
      (t.bind (.cons global) frame.car name (.expr k)) where
  toGrowsAt := Store.growsAt_defun function hframe
  defined c hc := by
    obtain ⟨hk, ht⟩ := Store.closure_eq_iff.1 function
    cases hk
    have hlt := (Array.getElem?_eq_some_iff.1 hframe).1
    obtain ⟨-, front, next, pair, -⟩ := Store.bind_spec hframe name (.expr s.closures.size)
    have closure : (t.bind (.cons global) frame.car name (.expr s.closures.size)).closures[
        s.closures.size]? = some ⟨params, body, env⟩ := by
      rw [Store.closures_bind, ht]
      exact Array.getElem?_push_size
    have same : frame = c := by
      rw [ht] at hframe
      exact Option.some.inj (hframe.symm.trans hc)
    subst same
    exact ⟨_, front, .more (by omega) next (by omega) pair closure .same⟩

end GrowsBy

def Goal.envs : Goal → List Env
  | .eval _ env => [env]
  | .args _ _ env => [env]
  | .body _ _ env => [env]
  | .apply _ _ => []

def Waiting.envs : Waiting → List Env
  | .test _ env => [env]
  | .function _ env => [env]
  | .arguments _ => []
  | .argument _ _ env => [env]
  | .form _ env => [env]

def Stage.envs : Stage → List Env
  | .idle => []
  | .ask g w => g.envs ++ w.flatMap Waiting.envs
  | .give _ w => w.flatMap Waiting.envs

/-- The environments that there are: the global one, those that closures have captured, and those of
the calls that are going on. -/
def Moment.Knows (root : Env) (m : Moment) (env : Env) : Prop :=
  env = root ∨ (∃ (k : Nat) (c : Closure), m.store.closures[k]? = some c ∧ c.env = env) ∨
    env ∈ m.stage.envs

/-- What a step can do to the store: it adds data, makes a closure in an environment of a call, or
defines one. -/
inductive Effect (m : Moment) : List Defined → Store → Prop where
  | data {s : Store} (adds : AddsData m.store s) : Effect m [] s
  | closure {s : Store} {env : Env} (adds : AddsData m.store s) (known : env ∈ m.stage.envs)
      (params body : Value) : Effect m [] (s.closure params body env).2
  | define {s t : Store} {env : Env} {params body name : Value} {k : Nat} {frame : Cell}
      (adds : AddsData m.store s) (known : env ∈ m.stage.envs)
      (function : s.closure params body env = (.expr k, t))
      (global : t.cell? env.globalFrames = some frame) :
      Effect m [⟨name, k, ⟨params, body, env⟩⟩] (t.bind env.globalFrames frame.car name (.expr k))

theorem addsData_of_keyword {s s₁ : Store} {table : Nat} {op : Value} {k : Option Keyword}
    (head : s.keyword table op = (k, s₁)) : AddsData s s₁ := by
  have adds := s.addsData_keyword table op
  rw [head] at adds
  exact adds

theorem addsData_of_extend {s s₁ : Store} {e env : Env} {params args : Value}
    (frame : s.extend e params args = (env, s₁)) : AddsData s s₁ := by
  have allocates := s.allocates_extend e params args
  rw [frame] at allocates
  exact allocates.addsData

theorem Step.effect {m m' : Moment} {ds : List Defined} (h : Step m ds m') :
    Effect m ds m'.store := by
  cases h with
  | @unbound sym _ _ s _ => exact .data (s.allocates_error (sym.name ++ " has no value")).addsData
  | quote _ head => exact .data (addsData_of_keyword head)
  | test _ head => exact .data (addsData_of_keyword head)
  | function _ head => exact .data (addsData_of_keyword head)
  | lambda _ head => exact .closure (addsData_of_keyword head) (by simp [Stage.envs, Goal.envs]) _ _
  | defun _ head function global =>
    exact .define (addsData_of_keyword head) (by simp [Stage.envs, Goal.envs]) function global
  | argsEnd _ => exact .data (Store.ofList_chain _ _).1.addsData
  | applySubr _ => exact .data (Store.allocates_call _ _ _).addsData
  | applyClosure _ _ frame => exact .data (addsData_of_extend frame)
  | @applyOther f _ _ s _ _ _ _ =>
    exact .data (s.allocates_error (s.print f ++ " is not function")).addsData
  | _ => exact .data (.refl _)

namespace Effect
variable {m : Moment} {ds : List Defined} {s : Store}

theorem tables (h : Effect m ds s) : s.tables.size = m.store.tables.size := by
  cases h with
  | data adds => exact adds.tableCount
  | closure adds _ _ _ => exact adds.tableCount
  | define adds _ function _ =>
    obtain ⟨-, rfl⟩ := Store.closure_eq_iff.1 function
    rw [Store.tables_bind]
    exact adds.tableCount

/-- A closure that is new has been made in the environment of a call. -/
theorem closures (h : Effect m ds s) {k : Nat} {c : Closure} (hc : s.closures[k]? = some c) :
    m.store.closures[k]? = some c ∨ c.env ∈ m.stage.envs := by
  have pushed : ∀ {s : Store} {params body : Value} {env : Env}, AddsData m.store s →
      env ∈ m.stage.envs → (s.closures.push ⟨params, body, env⟩)[k]? = some c →
        m.store.closures[k]? = some c ∨ c.env ∈ m.stage.envs := by
    intro s params body env adds known hc
    rw [Array.getElem?_push, adds.sameClosures] at hc
    split at hc
    · cases hc
      exact .inr known
    · exact .inl hc
  cases h with
  | data adds => exact .inl (adds.sameClosures ▸ hc)
  | closure adds known params body => exact pushed adds known hc
  | define adds known function _ =>
    obtain ⟨-, rfl⟩ := Store.closure_eq_iff.1 function
    rw [Store.closures_bind] at hc
    exact pushed adds known hc

/-- If the calls have one global frame, the store grows at it. -/
theorem growsBy {global : Nat} (h : Effect m ds s)
    (roots : ∀ env ∈ m.stage.envs, env.globalFrames = .cons global)
    (hglobal : global < m.store.cells.size) : GrowsBy global ds m.store s := by
  cases h with
  | data adds => exact .of_extends adds.toExtends
  | closure adds _ params body =>
    exact .of_extends (adds.toExtends.trans (Store.extends_closure _ params body _))
  | @define s t env params body name k frame adds known function hframe =>
    rw [roots env known] at hframe ⊢
    have definition : GrowsBy global [⟨name, k, ⟨params, body, env⟩⟩] s _ :=
      .defun function hframe
    exact (GrowsBy.of_extends adds.toExtends).trans definition hglobal

end Effect

/-- The environments after a step were there before, or one of them is that of a new call. -/
theorem Step.envs {m m' : Moment} {ds : List Defined} (h : Step m ds m') {env : Env}
    (henv : env ∈ m'.stage.envs) : env ∈ m.stage.envs ∨ ∃ (k : Nat) (c : Closure) (args : Value),
      m.store.closures[k]? = some c ∧ m.store.extend c.env c.params args = (env, m'.store) := by
  cases h with
  | @applyClosure k c args new w s s₁ _ closure frame =>
    simp only [Stage.envs, Goal.envs, List.singleton_append, List.mem_cons] at henv
    rcases henv with rfl | henv
    · exact .inr ⟨k, c, args, closure, frame⟩
    · exact .inl henv
  | _ =>
    left
    simp only [Stage.envs, Goal.envs, Waiting.envs, List.flatMap_cons, List.mem_append,
      List.mem_singleton, List.not_mem_nil, false_or] at henv ⊢
    tauto

structure Scoped (global : Nat) (s : Store) (env : Env) : Prop where
  root : env.globalFrames = .cons global
  frames : Framed global s env.frames

theorem Scoped.grow {global : Nat} {s t : Store} {env : Env} (h : Scoped global s env)
    (grow : GrowsAt global s t) : Scoped global t env :=
  ⟨h.root, h.frames.grow grow⟩

theorem Scoped.extend {global : Nat} {s : Store} {e : Env} (h : Scoped global s e)
    (hglobal : global < s.cells.size) (params args : Value) :
    Scoped global (s.extend e params args).2 (s.extend e params args).1 := by
  obtain ⟨growZip, fresh, pairs, chain, new, newPairs, hold⟩ := s.zip_chain params args
  have hsize := growZip.size_le
  have growCons := Store.allocates_cons (s.zip params args).2 (s.zip params args).1 e.frames
  have growInner := ((s.zip params args).2.cons (s.zip params args).1 e.frames).2.allocates_newInner
    ((s.zip params args).2.cons (s.zip params args).1 e.frames).1 e
  have grow := growCons.trans growInner
  have alist : IsAlist global (s.zip params args).2 (s.zip params args).1 := by
    refine ⟨fresh, _, chain, fun a ha => ?_, fun x hx => ?_⟩
    · have := (new a ha).1
      omega
    · obtain ⟨p, hp, rfl⟩ := List.mem_map.1 hx
      have hnew := (newPairs p hp).1
      have hlt := (newPairs p hp).2
      exact ⟨p, _, rfl, by omega, Array.getElem?_eq_getElem hlt⟩
  refine ⟨h.root, .frame ?_ (Store.getElem?_cons_self _ _ _) ?_ ?_⟩
  · omega
  · exact alist.grow (grow.toExtends.growsAt global)
  · exact h.frames.grow ((growZip.trans grow).toExtends.growsAt global)

/-- What holds at every moment of a session: the global frame is there, and all environments end in
it. -/
structure Situated (root : Env) (global : Nat) (m : Moment) : Prop where
  table : root.table < m.store.tables.size
  frame : ∃ alist, m.store.cells[global]? = some ⟨alist, .nil⟩ ∧ IsAlist global m.store alist
  environments : ∀ env, m.Knows root env → Scoped global m.store env

namespace Situated
variable {root : Env} {global : Nat} {m m' : Moment} {ds : List Defined}

theorem global_lt (h : Situated root global m) : global < m.store.cells.size := by
  obtain ⟨alist, cell, -⟩ := h.frame
  exact (Array.getElem?_eq_some_iff.1 cell).1

theorem root_of_mem (h : Situated root global m) {env : Env} (henv : env ∈ m.stage.envs) :
    env.globalFrames = .cons global :=
  (h.environments env (.inr (.inr henv))).root

/-- A step adds to the store, and puts the definition that it carries out into the global frame. -/
theorem growsBy (h : Situated root global m) {s : Store} (effect : Effect m ds s) :
    GrowsBy global ds m.store s :=
  effect.growsBy (fun _ known => h.root_of_mem known) h.global_lt

theorem after_growth {stage : Stage} {s : Store} (h : Situated root global m)
    (effect : Effect m ds s)
    (calls : ∀ env ∈ stage.envs, Scoped global s env) : Situated root global ⟨stage, s⟩ := by
  have grow := h.growsBy effect
  refine ⟨effect.tables.symm ▸ h.table, ?_, ?_⟩
  · obtain ⟨alist, cell, hold⟩ := h.frame
    obtain ⟨new, cell', prepends⟩ := grow.defined _ cell
    exact ⟨new, cell', prepends.isAlist (hold.grow grow.toGrowsAt)⟩
  · rintro env (rfl | ⟨k, c, closure, rfl⟩ | henv)
    · exact (h.environments _ (.inl rfl)).grow grow.toGrowsAt
    · rcases effect.closures closure with old | known
      · exact (h.environments _ (.inr (.inl ⟨k, c, old, rfl⟩))).grow grow.toGrowsAt
      · exact (h.environments _ (.inr (.inr known))).grow grow.toGrowsAt
    · exact calls env henv

theorem step (h : Situated root global m) (step : Step m ds m') : Situated root global m' := by
  refine h.after_growth step.effect fun env henv => ?_
  rcases step.envs henv with known | ⟨k, c, args, closure, call⟩
  · exact (h.environments env (.inr (.inr known))).grow (h.growsBy step.effect).toGrowsAt
  · have extended := (h.environments c.env (.inr (.inl ⟨k, c, closure, rfl⟩))).extend h.global_lt
      c.params args
    rw [call] at extended
    exact extended

/-- A move of a session adds to the store and puts the definition that it carries out into the
global frame, and what holds at every moment holds after it. -/
theorem move (h : Situated root global m) (move : Move root m ds m') :
    GrowsBy global ds m.store m'.store ∧ Situated root global m' := by
  cases move with
  | step step => exact ⟨h.growsBy step.effect, h.step step⟩
  | @line text rest form s s' reading =>
    have adds := Reading.store_leaves _ h.table (.inl ⟨_, reading⟩)
    have effect : Effect ⟨.idle, s⟩ [] s' := .data adds
    refine ⟨h.growsBy effect, h.after_growth effect fun env henv => ?_⟩
    rw [List.mem_singleton.1 henv]
    exact (h.environments root (.inl rfl)).grow (h.growsBy effect).toGrowsAt
  | @refused text stop s s' reading =>
    have adds := Reading.store_leaves _ h.table (.inr ⟨_, reading⟩)
    have effect : Effect ⟨.idle, s⟩ [] s' := .data adds
    exact ⟨h.growsBy effect, h.after_growth effect (by simp [Stage.envs])⟩
  | @answered v s =>
    have effect : Effect ⟨.give v [], s⟩ [] s := .data (.refl s)
    exact ⟨h.growsBy effect, h.after_growth effect (by simp [Stage.envs])⟩

/-- The stores before and after tell the definitions in between. -/
theorem unique {s : Store} {ds' : List Defined} (h : Situated root global m)
    (grow : GrowsBy global ds m.store s) (grow' : GrowsBy global ds' m.store s) : ds = ds' := by
  obtain ⟨alist, cell, pairs⟩ := h.frame
  obtain ⟨new, after, prepends⟩ := grow.defined _ cell
  obtain ⟨new', after', prepends'⟩ := grow'.defined _ cell
  cases after.symm.trans after'
  exact prepends.unique prepends' (pairs.grow grow.toGrowsAt)

theorem course (h : Situated root global m) (course : Course (Move root) m ds m') :
    GrowsBy global ds m.store m'.store ∧ Situated root global m' := by
  induction course with
  | refl => exact ⟨.of_extends (.refl _), h⟩
  | next _ last ih =>
    obtain ⟨grow, situated⟩ := ih
    obtain ⟨grow', situated'⟩ := situated.move last
    exact ⟨grow.trans grow' h.global_lt, situated'⟩

theorem ask {env : Env} (h : Situated root global m) (known : m.Knows root env) (form : Value) :
    Situated root global ⟨.ask (.eval form env) [], m.store⟩ := by
  refine ⟨h.table, h.frame, ?_⟩
  rintro e (rfl | captured | he)
  · exact h.environments _ (.inl rfl)
  · exact h.environments e (.inr (.inl captured))
  · cases List.mem_singleton.1 he
    exact h.environments _ known

theorem performs {env : Env} {form v : Value} {s : Store} (h : Situated root global m)
    (known : m.Knows root env) (performs : Performs (.eval form env) m.store ds v s) :
    GrowsBy global ds m.store s :=
  ((h.ask known form).course (Course.mono .step performs)).1

end Situated

/-- At every moment of a session, all environments end in its one global frame. -/
theorem Reached.situated {root : Env} {m : Moment} (h : Reached root m) :
    ∃ global, Situated root global m := by
  obtain ⟨s, ds, fresh, course⟩ := h
  cases newSession_eq.symm.trans fresh
  refine ⟨0, (Situated.course ⟨by decide, ⟨.cons 8, rfl, ?_⟩, ?_⟩ course).2⟩
  · refine ⟨_, _, .cons rfl (.cons rfl (.cons rfl (.cons rfl .nil))), by simp, ?_⟩
    simp
  · rintro env (rfl | ⟨k, c, closure, -⟩ | henv)
    · exact ⟨rfl, .root⟩
    · simp at closure
    · simp [Stage.envs] at henv

theorem Env.find?_eq (env : Env) (key : Value) (s : Store) :
    env.find? key s = .ok (s.findPair? env.frames key) s := rfl

theorem Env.get_eq_of_some {env : Env} {key pair : Value} {s : Store}
    (h : s.findPair? env.frames key = some pair) : env.get key s = .ok (s.cdr pair) s := by
  simp only [Env.get, Env.find?, Run.look_bind_apply, h, Run.look_apply]

theorem Store.cdr_eq {s t : Store} {v : Value} (h : t.cell? v = s.cell? v) : t.cdr v = s.cdr v := by
  rw [cdr, cdr, h]

/-- Between the stores of two moments, a key that one of the other frames binds keeps its pair. Any
other key gets its latest definition in between, or keeps its old pair. -/
theorem Situated.lookupKept {root env : Env} {global : Nat} {m : Moment} {s : Store}
    {ds : List Defined} (situated : Situated root global m) (known : m.Knows root env)
    (grow : GrowsBy global ds m.store s) (key : Value) : LookupKept env key ds m.store s := by
  have framed := (situated.environments env known).frames
  obtain ⟨alist, cell, pairs⟩ := situated.frame
  obtain ⟨new, cell', prepends⟩ := grow.defined _ cell
  obtain ⟨before, -⟩ := framed.findPair?_eq (.refl global _) cell cell key
  obtain ⟨after, same⟩ := framed.findPair?_eq grow.toGrowsAt cell' cell key
  obtain ⟨oldPairs, oldCells⟩ := pairs.find?_eq grow.toGrowsAt key
  have newPairs := prepends.find?_eq (pairs.grow grow.toGrowsAt) key
  refine ⟨fun pair hlocal => ?_, fun hlocal d hd => ?_, fun hlocal hd => ?_⟩
  · rw [Env.find?_eq, Env.find?_eq, before, after, hlocal]
    exact ⟨rfl, rfl, Store.cdr_eq (same pair hlocal)⟩
  · rw [hlocal, Option.none_or] at after
    rw [hd] at newPairs
    obtain ⟨pair, found, value⟩ := newPairs
    rw [Env.get_eq_of_some (after.trans found), value]
    exact ⟨rfl, prepends.closure_of_mem (List.mem_of_find?_eq_some hd)⟩
  · rw [hlocal, Option.none_or] at before after
    rw [hd] at newPairs
    rw [Env.find?_eq, Env.find?_eq, after, newPairs, oldPairs, before]
    refine ⟨_, rfl, rfl, fun pair found => ?_⟩
    exact Store.cdr_eq (oldCells pair (List.mem_of_find?_eq_some found))

end PocketLisp
