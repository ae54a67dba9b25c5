import PocketLisp.Proofs.Confinement

/-!
# Stores as one interpreter sees them

Interpreters may share a store. To one of them, the closures of the others do not matter: an
evaluation looks at a closure only to apply it, and it applies only closures that are confined to
its realm. So a store may be secluded for an environment, which gives all closures that are not made
in its like the global frame of that environment, and each step of an evaluation is a step in the
secluded stores.
-/
namespace PocketLisp

def Store.withClosures (s : Store) (cs : Array Closure) : Store := { s with closures := cs }

/-- The closure itself if it has the table and the global frame of the environment, and else one
that has the global frame but another table. -/
def conceal (env : Env) (c : Closure) : Closure :=
  if c.env.table = env.table ∧ c.env.globalFrames = env.globalFrames then c
  else ⟨c.params, c.body,
    { c.env with table := env.table + 1, globalFrames := env.globalFrames }⟩

/-- The store as an interpreter with the given environment sees it. -/
def Store.secluded (s : Store) (env : Env) : Store :=
  s.withClosures (s.closures.map (conceal env))

namespace Store
variable (s : Store) (cs : Array Closure)

/-- Only the closures of a store are looked at when a closure is applied. -/
theorem elements_withClosures (v : Value) : (s.withClosures cs).elements v = s.elements v := by
  have within : ∀ (fuel : Nat) (v : Value),
      (s.withClosures cs).elementsWithin fuel v = s.elementsWithin fuel v := by
    intro fuel
    induction fuel with
    | zero => exact fun _ => rfl
    | succ fuel ih =>
      intro v
      simp only [elementsWithin, ih]
      rfl
  exact within _ v

theorem findPair?_withClosures (frames key : Value) :
    (s.withClosures cs).findPair? frames key = s.findPair? frames key := by
  simp only [findPair?, elements_withClosures]
  rfl

theorem tree_withClosures (v : Value) : (s.withClosures cs).tree v = s.tree v := by
  have within : ∀ (fuel : Nat) (v : Value),
      (s.withClosures cs).treeWithin fuel v = s.treeWithin fuel v := by
    intro fuel
    induction fuel with
    | zero => exact fun _ => rfl
    | succ fuel ih =>
      intro v
      simp only [treeWithin, ih]
      rfl
  exact within _ v

theorem print_withClosures (v : Value) : (s.withClosures cs).print v = s.print v := by
  rw [print, print, tree_withClosures]

theorem reverseOnto_withClosures (fuel : Nat) (v done : Value) (s : Store) :
    reverseOnto fuel v done (s.withClosures cs) =
      ((reverseOnto fuel v done s).1, (reverseOnto fuel v done s).2.withClosures cs) := by
  induction fuel generalizing v done s with
  | zero => rfl
  | succ fuel ih =>
    have same : (s.withClosures cs).cell? v = s.cell? v := rfl
    simp only [reverseOnto, same]
    cases s.cell? v with
    | none => rfl
    | some c =>
      have set : (s.withClosures cs).setCdr v done = (s.setCdr v done).withClosures cs := by
        cases v <;> rfl
      simp only [set, ih]

theorem reverse_withClosures (v : Value) :
    (s.withClosures cs).reverse v = ((s.reverse v).1, (s.reverse v).2.withClosures cs) :=
  reverseOnto_withClosures cs _ v .nil s

theorem pushAll_withClosures (vs : List Value) (done : Value) (s : Store) :
    pushAll vs done (s.withClosures cs) =
      ((pushAll vs done s).1, (pushAll vs done s).2.withClosures cs) := by
  induction vs generalizing done s with
  | nil => rfl
  | cons v vs ih => exact ih (s.cons v done).1 (s.cons v done).2

theorem ofList_withClosures (vs : List Value) :
    (s.withClosures cs).ofList vs = ((s.ofList vs).1, (s.ofList vs).2.withClosures cs) := by
  simp only [ofList, pushAll_withClosures, reverse_withClosures]

theorem pushPairs_withClosures (pairs : List (Value × Value)) (done : Value) (s : Store) :
    pushPairs pairs done (s.withClosures cs) =
      ((pushPairs pairs done s).1, (pushPairs pairs done s).2.withClosures cs) := by
  induction pairs generalizing done s with
  | nil => rfl
  | cons pair pairs ih => exact ih _ ((s.cons pair.1 pair.2).2.cons (s.cons pair.1 pair.2).1 done).2

theorem zip_withClosures (keys values : Value) :
    (s.withClosures cs).zip keys values =
      ((s.zip keys values).1, (s.zip keys values).2.withClosures cs) := by
  simp only [zip, elements_withClosures, pushPairs_withClosures, reverse_withClosures]

theorem extend_withClosures (env : Env) (params args : Value) :
    (s.withClosures cs).extend env params args =
      ((s.extend env params args).1, (s.extend env params args).2.withClosures cs) := by
  simp only [extend, zip_withClosures]
  rfl

theorem intern_withClosures (table : Nat) (name : String) :
    (s.withClosures cs).intern table name =
      ((s.intern table name).1, (s.intern table name).2.withClosures cs) := by
  have same : (s.withClosures cs).findSymbol? table name = s.findSymbol? table name := rfl
  simp only [intern, same]
  split
  · rfl
  · cases s.findSymbol? table name <;> rfl

theorem keyword_withClosures (table : Nat) (op : Value) :
    (s.withClosures cs).keyword table op =
      ((s.keyword table op).1, (s.keyword table op).2.withClosures cs) := by
  have among : ∀ (names : List (String × Keyword)) (s : Store),
      keywordAmong table op names (s.withClosures cs) =
        ((keywordAmong table op names s).1, (keywordAmong table op names s).2.withClosures cs) := by
    intro names
    induction names with
    | nil => exact fun _ => rfl
    | cons entry names ih =>
      intro s
      simp only [keywordAmong, intern_withClosures]
      split
      · rfl
      · exact ih _
  exact among keywords s

theorem bind_withClosures (frames bindings key value : Value) :
    (s.withClosures cs).bind frames bindings key value =
      (s.bind frames bindings key value).withClosures cs := by
  cases frames <;> rfl

theorem call_withClosures (procedure : Procedure) (args : Value) :
    (s.withClosures cs).call procedure args =
      ((s.call procedure args).1, (s.call procedure args).2.withClosures cs) := by
  cases procedure <;> rfl

end Store

theorem conceal_eq_self {env : Env} {c : Closure}
    (own : c.env.table = env.table ∧ c.env.globalFrames = env.globalFrames) : conceal env c = c :=
  if_pos own

theorem conceal_globalFrames (env : Env) (c : Closure) :
    (conceal env c).env.globalFrames = env.globalFrames := by
  unfold conceal
  split
  · next own => exact own.2
  · rfl

namespace Store
variable {s s' : Store} {env : Env}

theorem closures_secluded (s : Store) (env : Env) (k : Nat) :
    (s.secluded env).closures[k]? = s.closures[k]?.map (conceal env) :=
  Array.getElem?_map

theorem secluded_eq (h : s'.closures = s.closures) :
    s'.withClosures (s.closures.map (conceal env)) = s'.secluded env := by
  rw [secluded, h]

theorem keyword_secluded {table : Nat} {op : Value} {k : Option Keyword}
    (head : s.keyword table op = (k, s')) :
    (s.secluded env).keyword table op = (k, s'.secluded env) := by
  rw [secluded, keyword_withClosures, head, secluded_eq (addsData_of_keyword head).sameClosures]

theorem ofList_secluded (vs : List Value) :
    (s.secluded env).ofList vs = ((s.ofList vs).1, (s.ofList vs).2.secluded env) := by
  rw [secluded, ofList_withClosures, secluded_eq (s.ofList_chain vs).1.closures]

theorem call_secluded (procedure : Procedure) (args : Value) :
    (s.secluded env).call procedure args =
      ((s.call procedure args).1, (s.call procedure args).2.secluded env) := by
  rw [secluded, call_withClosures, secluded_eq (s.allocates_call procedure args).closures]

theorem extend_secluded {e e' : Env} {params args : Value}
    (frame : s.extend e params args = (e', s')) :
    (s.secluded env).extend e params args = (e', s'.secluded env) := by
  rw [secluded, extend_withClosures, frame, secluded_eq (addsData_of_extend frame).sameClosures]

theorem bind_secluded (frames bindings key value : Value) :
    (s.secluded env).bind frames bindings key value =
      (s.bind frames bindings key value).secluded env := by
  rw [secluded, bind_withClosures, secluded_eq (s.closures_bind _ _ _ _)]

theorem closure_secluded {params body f : Value} {e : Env} (own : e.table = env.table ∧
    e.globalFrames = env.globalFrames) (function : s.closure params body e = (f, s')) :
    (s.secluded env).closure params body e = (f, s'.secluded env) := by
  have same : conceal env ⟨params, body, e⟩ = ⟨params, body, e⟩ := conceal_eq_self own
  obtain ⟨rfl, rfl⟩ := closure_eq_iff.1 function
  simp only [closure, secluded, withClosures, Array.size_map, Array.map_push, same]

theorem rooted_secluded {global : Nat} (h : env.globalFrames = .cons global) (s : Store) :
    Rooted global (s.secluded env) := by
  intro k c hc
  rw [closures_secluded] at hc
  obtain ⟨c, -, rfl⟩ := Option.map_eq_some_iff.1 hc
  rw [conceal_globalFrames, h]

end Store

def Moment.secluded (m : Moment) (env : Env) : Moment := ⟨m.stage, m.store.secluded env⟩

def Realm.OwnedBy (R : Realm) (env : Env) : Prop :=
  ∀ table v, R.envs table v → table = env.table ∧ v = env.globalFrames

/-- The closures of one's own realm are in the secluded store as they are. -/
theorem Realm.OwnedBy.closures {R : Realm} {s : Store} {env : Env} (own : R.OwnedBy env) {k : Nat}
    {c : Closure} (mine : R.envs c.env.table c.env.globalFrames)
    (closure : s.closures[k]? = some c) : (s.secluded env).closures[k]? = some c := by
  rw [Store.closures_secluded, closure, Option.map_some, conceal_eq_self (own _ _ mine)]

theorem Confined.secluded {R : Realm} {s : Store} {env : Env} {v : Value} (h : Confined R s v)
    (own : R.OwnedBy env) : Confined R (s.secluded env) v :=
  h.congr (fun _ _ _ cell => cell) fun _ _ => own.closures

theorem Step.secluded {R : Realm} {env : Env} {m m' : Moment} {ds : List Defined}
    (h : Step m ds m') (hm : m.ConfinedTo R) (own : R.OwnedBy env) :
    Step (m.secluded env) ds (m'.secluded env) := by
  cases h with
  | bound found => exact .bound ((Store.findPair?_withClosures _ _ _ _).trans found)
  | unbound missing => exact .unbound ((Store.findPair?_withClosures _ _ _ _).trans missing)
  | self symbol cell => exact .self symbol cell
  | @quote _ _ _ _ w s _ cell head =>
    have step := Step.quote (w := w) (s := s.secluded env) cell (Store.keyword_secluded head)
    exact step
  | @test _ _ _ _ w s _ cell head =>
    have step := Step.test (w := w) (s := s.secluded env) cell (Store.keyword_secluded head)
    exact step
  | testError error => exact .testError error
  | branch value => exact .branch value
  | @lambda _ op args e w s s₁ cell head =>
    have step := Step.lambda (w := w) (s := s.secluded env) cell (Store.keyword_secluded head)
    rw [Store.closure_secluded (own _ _ hm.1.2.own) rfl] at step
    exact step
  | @defun _ k op args e w s s₁ s₂ frame cell head function global =>
    have step := Step.defun (w := w) (s := s.secluded env) cell (Store.keyword_secluded head)
      (Store.closure_secluded (own _ _ hm.1.2.own) function) global
    rw [Store.bind_secluded] at step
    exact step
  | @function _ op args e w s s₁ cell head =>
    have step := Step.function (w := w) (s := s.secluded env) cell (Store.keyword_secluded head)
    exact step
  | arguments => exact .arguments
  | application => exact .application
  | @argsEnd done forms e w s cell =>
    have step := @Step.argsEnd done forms e w (s.secluded env) cell
    rw [Store.ofList_secluded] at step
    exact step
  | argument cell => exact .argument cell
  | argsError error => exact .argsError error
  | argsNext noError => exact .argsNext noError
  | bodyEnd cell => exact .bodyEnd cell
  | form cell => exact .form cell
  | bodyNext => exact .bodyNext
  | applyError error => exact .applyError error
  | applyArgsError noError error => exact .applyArgsError noError error
  | @applySubr serial procedure args w s noError =>
    have step := @Step.applySubr serial procedure args w (s.secluded env) noError
    rw [Store.call_secluded] at step
    exact step
  | @applyClosure k c args e w s s₁ noError closure frame =>
    obtain ⟨-, -, he⟩ := (hm.1.1.confined rfl).closure closure
    exact .applyClosure noError (own.closures he.own closure) (Store.extend_secluded frame)
  | @applyOther f args w s noError noArgsError subr closure =>
    have step := Step.applyOther (w := w) (s := s.secluded env) noError noArgsError subr closure
    rw [Store.secluded, Store.print_withClosures] at step
    exact step

/-- An evaluation in a realm is one in the secluded stores. -/
theorem Course.secluded {R : Realm} {env : Env} {m m' : Moment} {ds : List Defined}
    (h : Course Step m ds m') (hm : m.ConfinedTo R) (own : R.OwnedBy env)
    (fresh : ∀ a, m.store.cells.size ≤ a → R.cells a) :
    Course Step (m.secluded env) ds (m'.secluded env) := by
  induction h with
  | refl => exact .refl
  | next earlier last ih => exact ih.next (last.secluded (earlier.confined hm fresh).2.1 own)

theorem Answers.secluded {R : Realm} {env : Env} {g : Goal} {s s' : Store} {v : Value}
    (h : Answers g s v s') (hg : g.ConfinedTo R s) (own : R.OwnedBy env)
    (fresh : ∀ a, s.cells.size ≤ a → R.cells a) :
    Answers g (s.secluded env) v (s'.secluded env) := by
  obtain ⟨ds, course⟩ := answers_iff_performs.1 h
  exact answers_iff_performs.2 ⟨ds, course.secluded ⟨hg, by simp⟩ own fresh⟩

/-- An evaluation in a realm with one global frame changes that frame alone, and adds no table. -/
theorem Course.growsAt {R : Realm} {global : Nat} {m m' : Moment} {ds : List Defined}
    (h : Course Step m ds m') (hm : m.ConfinedTo R)
    (root : ∀ table v, R.envs table v → v = .cons global)
    (fresh : ∀ a, m.store.cells.size ≤ a → R.cells a) (hglobal : global < m.store.cells.size) :
    GrowsAt global m.store m'.store ∧ m'.store.tables.size = m.store.tables.size := by
  induction h with
  | refl => exact ⟨.refl global _, rfl⟩
  | next earlier last ih =>
    obtain ⟨-, confined, size⟩ := earlier.confined hm fresh
    obtain ⟨grow, tables⟩ := ih
    have grow' := last.effect.growsBy (fun e he => root _ _ (confined.envs e he).own)
      (Nat.lt_of_lt_of_le hglobal size)
    exact ⟨grow.trans grow'.toGrowsAt hglobal, last.effect.tables.trans tables⟩

end PocketLisp
