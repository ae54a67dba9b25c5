import PocketLisp.Proofs.GlobalFrame
import PocketLisp.Proofs.ReadData

/-!
# Sessions

A session starts with the core procedures and goes on by reading, by evaluation, and by the steps
of which an evaluation consists, so its stores include those in the middle of an evaluation. All its
environments share one global frame, and nothing but that frame is ever changed.
-/
namespace PocketLisp

/-- The store that a computation leaves, whether it has a value or is stopped. -/
def Run.Leaves {α : Type} (x : Run α) (s s' : Store) : Prop :=
  (∃ a, x s = .ok a s') ∨ ∃ stop, x s = .error stop s'

/-- `Session root envs s`: in a session with the global environment `root`, the store `s` and the
environments `envs` come up. -/
inductive Session (root : Env) : List Env → Store → Prop where
  | start {s : Store} (h : Env.newSession Store.empty = .ok root s) : Session root [root] s
  | read {envs : List Env} {s s' : Store} {text : List Char} (h : Session root envs s)
      (reading : (PocketLisp.read root.table text).Leaves s s') : Session root envs s'
  | intern {envs : List Env} {s : Store} (h : Session root envs s) (name : String) :
      Session root envs (s.intern root.table name).2
  | list {envs : List Env} {s : Store} (h : Session root envs s) (values : List Value) :
      Session root envs (s.ofList values).2
  | eval {envs : List Env} {s s' : Store} {env : Env} {width depth : Nat} {form v : Value}
      (h : Session root envs s) (known : env ∈ envs)
      (evaluation : (Engine.core width depth).eval form env s = .ok v s') : Session root envs s'
  | captured {envs : List Env} {s : Store} {k : Nat} {c : Closure} (h : Session root envs s)
      (closure : s.closures[k]? = some c) : Session root (c.env :: envs) s
  | call {envs : List Env} {s : Store} {env : Env} (h : Session root envs s) (known : env ∈ envs)
      (params args : Value) :
      Session root ((s.extend env params args).1 :: envs) (s.extend env params args).2

/-- What holds of the stores and environments of a session: there is one global frame, which all
closures and environments extend, and the symbol table is there. -/
structure Anchored (root : Env) (global : Nat) (envs : List Env) (s : Store) : Prop where
  frames : root.frames = .cons global
  inStore : global < s.cells.size
  rooted : Rooted global s
  shared : ∀ env ∈ envs, env.globalFrames = .cons global
  table : ∃ sym, s.findSymbol? root.table "t" = some sym

namespace Anchored
variable {root : Env} {global : Nat} {envs : List Env} {s s' : Store}

theorem grow (h : Anchored root global envs s) (grow : GrowsAt global s s')
    (rooted : Rooted global s') : Anchored root global envs s' where
  frames := h.frames
  inStore := Nat.lt_of_lt_of_le h.inStore grow.size_le
  rooted := rooted
  shared := h.shared
  table := by
    obtain ⟨sym, hsym⟩ := h.table
    exact ⟨sym, grow.symbols _ _ _ hsym⟩

theorem addsData (h : Anchored root global envs s) (adds : AddsData s s') :
    Anchored root global envs s' :=
  h.grow (adds.growsAt global) (h.rooted.of_closures_eq adds.sameClosures)

theorem table_lt (h : Anchored root global envs s) : root.table < s.tables.size := by
  obtain ⟨sym, hsym⟩ := h.table
  by_contra hlt
  simp [Store.findSymbol?, Store.symbols, Array.getElem?_eq_none (Nat.le_of_not_lt hlt)] at hsym

theorem cons (h : Anchored root global envs s) {env : Env}
    (henv : env.globalFrames = .cons global) :
    Anchored root global (env :: envs) s where
  frames := h.frames
  inStore := h.inStore
  rooted := h.rooted
  shared e he := by
    rcases List.mem_cons.1 he with rfl | he
    · exact henv
    · exact h.shared e he
  table := h.table

end Anchored

/-- Reading adds to the store, also when a numeral stops it. -/
theorem Reading.store_leaves {bound : List Char} (r : Reading bound) {table : Nat} {s s' : Store}
    (hT : table < s.tables.size) (h : (r.store table).Leaves s s') : AddsData s s' := by
  have spec := r.store_spec hT
  cases r with
  | form names d rest short =>
    obtain ⟨v, t, hok, adds, -⟩ := spec
    rcases h with ⟨a, h⟩ | ⟨stop, h⟩
    · cases hok.symm.trans h
      exact adds
    · cases hok.symm.trans h
  | overlong names digits =>
    obtain ⟨t, herror, adds⟩ := spec
    rcases h with ⟨a, h⟩ | ⟨stop, h⟩
    · cases herror.symm.trans h
    · cases herror.symm.trans h
      exact adds

/-- A fresh session: a frame of four bindings, and the symbols that they bind. -/
theorem newSession_eq : Env.newSession Store.empty =
    .ok ⟨1, .cons 0, 0, 1, .cons 0⟩
      ⟨#[⟨.cons 8, .nil⟩,
        ⟨.sym ⟨2, "car"⟩, .subr 0 .car⟩, ⟨.cons 1, .nil⟩,
        ⟨.sym ⟨3, "cdr"⟩, .subr 0 .cdr⟩, ⟨.cons 3, .cons 2⟩,
        ⟨.sym ⟨4, "cons"⟩, .subr 0 .cons⟩, ⟨.cons 5, .cons 4⟩,
        ⟨.sym ⟨5, "t"⟩, .sym ⟨5, "t"⟩⟩, ⟨.cons 7, .cons 6⟩],
        #[], #[[⟨5, "t"⟩, ⟨4, "cons"⟩, ⟨3, "cdr"⟩, ⟨2, "car"⟩]], 6, #[]⟩ := rfl

namespace Session
variable {root : Env} {envs : List Env} {s : Store}

/-- All stores of a session are anchored at its global frame. -/
theorem anchored (h : Session root envs s) : ∃ global, Anchored root global envs s := by
  induction h with
  | start h =>
    cases newSession_eq.symm.trans h
    exact ⟨0, rfl, by decide, fun k c hc => by simp at hc, by simp, ⟨5, "t"⟩, rfl⟩
  | read _ reading ih =>
    obtain ⟨global, ih⟩ := ih
    exact ⟨global, ih.addsData (Reading.store_leaves _ ih.table_lt reading)⟩
  | intern _ name ih =>
    obtain ⟨global, ih⟩ := ih
    exact ⟨global, ih.addsData (Store.addsData_intern _ _ name)⟩
  | list _ values ih =>
    obtain ⟨global, ih⟩ := ih
    exact ⟨global, ih.addsData (Store.ofList_chain _ values).1.addsData⟩
  | eval _ known evaluation ih =>
    obtain ⟨global, ih⟩ := ih
    obtain ⟨grow, rooted⟩ :=
      (answers_of_run evaluation).growsAt ih.inStore ih.rooted (ih.shared _ known)
    exact ⟨global, ih.grow grow rooted⟩
  | captured _ closure ih =>
    obtain ⟨global, ih⟩ := ih
    exact ⟨global, ih.cons (ih.rooted _ _ closure)⟩
  | call _ known params args ih =>
    obtain ⟨global, ih⟩ := ih
    have shared := ih.shared _ known
    exact ⟨global, (ih.addsData (Store.allocates_extend _ _ params args).addsData).cons shared⟩

/-- Evaluation in any environment of a session changes no cell but that of the global frame, which
gets definitions in front of what it binds, and reading changes no cell at all. -/
theorem cells_kept (h : Session root envs s) :
    ∃ global frame, root.frames = .cons global ∧ s.cells[global]? = some frame ∧
      (∀ env ∈ envs, ∀ width depth form v s',
        (Engine.core width depth).eval form env s = .ok v s' →
        (∀ a < s.cells.size, a ≠ global → s'.cells[a]? = s.cells[a]?) ∧
        ∃ new, s'.cells[global]? = some ⟨new, frame.cdr⟩ ∧ Definitions s s' frame.car new) ∧
      ∀ text s', (PocketLisp.read root.table text).Leaves s s' →
        ∀ a < s.cells.size, s'.cells[a]? = s.cells[a]? := by
  obtain ⟨global, anchored⟩ := h.anchored
  have hframe := Array.getElem?_eq_getElem anchored.inStore
  refine ⟨global, _, anchored.frames, hframe,
    fun env henv width depth form v s' evaluation => ?_, fun text s' reading => ?_⟩
  · have shared := anchored.shared env henv
    obtain ⟨grow, -⟩ :=
      (answers_of_run evaluation).growsAt anchored.inStore anchored.rooted shared
    exact ⟨grow.cells, grow.frame _ hframe⟩
  · have adds := Reading.store_leaves _ anchored.table_lt reading
    exact fun a ha => adds.getElem?_of_lt ha

/-- After a definition, also in the environment of the function that was defined. -/
theorem cells_kept_after_definition : ∃ root envs s, Session root envs s ∧ envs.length = 2 ∧
    s.closures.size = 1 ∧ ∃ global frame, root.frames = .cons global ∧
      s.cells[global]? = some frame ∧
      (∀ env ∈ envs, ∀ width depth form v s',
        (Engine.core width depth).eval form env s = .ok v s' →
        (∀ a < s.cells.size, a ≠ global → s'.cells[a]? = s.cells[a]?) ∧
        ∃ new, s'.cells[global]? = some ⟨new, frame.cdr⟩ ∧ Definitions s s' frame.car new) ∧
      ∀ text s', (PocketLisp.read root.table text).Leaves s s' →
        ∀ a < s.cells.size, s'.cells[a]? = s.cells[a]? := by
  have named := (start newSession_eq).intern "defun"
  have form := named.list [.sym ⟨6, "defun"⟩, .sym ⟨5, "t"⟩, .nil, .sym ⟨5, "t"⟩]
  have evaluation := form.eval (List.mem_singleton.2 rfl)
    (rfl : (Engine.core 2 2).eval (.cons 9) ⟨1, .cons 0, 0, 1, .cons 0⟩ _ = .ok _ _)
  have known := @captured _ _ _ 0 _ evaluation rfl
  exact ⟨_, _, _, known, rfl, rfl, known.cells_kept⟩

end Session

end PocketLisp
