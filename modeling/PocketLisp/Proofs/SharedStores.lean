import PocketLisp.Proofs.Residents

/-!
# Interpreters that share a store

Any number of interpreters share one store, and some of them a symbol table. They join at any time,
and their lines come in any order. None of them can tell that the others are there: what becomes of
its lines is what becomes of them in a fresh session, with a store of its own.
-/
namespace PocketLisp

/-- `Shared parties s`: interpreters that share the store `s`, by their global environments, each
with its lines so far and what has become of them. A table may hold any names before an interpreter
is made for it. -/
inductive Shared : List (Env × Log) → Store → Prop where
  | start : Shared [] Store.empty
  | table {parties : List (Env × Log)} {s : Store} (h : Shared parties s) :
      Shared parties s.newTable.2
  | intern {parties : List (Env × Log)} {s : Store} (h : Shared parties s) (table : Nat)
      (name : String) : Shared parties (s.intern table name).2
  | join {parties : List (Env × Log)} {s s' : Store} {table : Nat} {env : Env}
      (h : Shared parties s) (inStore : table < s.tables.size)
      (core : Env.newCore table s = .ok env s') : Shared ((env, []) :: parties) s'
  | line {before after : List (Env × Log)} {env : Env} {log : Log} {s s' : Store}
      {width depth : Nat} {line : String} {outcome : Except Fault String}
      (h : Shared (before ++ (env, log) :: after) s)
      (attempt : ((Engine.core width depth).rep env line).attempt s = .ok outcome s') :
      Shared (before ++ (env, log ++ [(line, outcome)]) :: after) s'

/-- An interpreter may have a table of its own. -/
theorem Shared.session {parties : List (Env × Log)} {s s' : Store} {env : Env}
    (h : Shared parties s) (fresh : Env.newSession s = .ok env s') :
    Shared ((env, []) :: parties) s' := by
  have core : Env.newCore s.tables.size s.newTable.2 = .ok env s' := fresh
  exact h.table.join (by simp [Store.newTable]) core

def globalFramesOf (parties : List (Env × Log)) : List Value :=
  parties.map fun party => party.1.globalFrames

/-- What holds of interpreters that share a store: each has a global frame of its own and resides
among those of the others, with the globals that come of its lines. -/
structure Apart (parties : List (Env × Log)) (s : Store) : Prop where
  distinct : (globalFramesOf parties).Nodup
  resident : ∀ party ∈ parties, ∃ global g,
    Resides (globalFramesOf parties) s party.1 global g ∧ Converses party.2 g

namespace Apart
variable {parties : List (Env × Log)} {s s' : Store}

theorem hasFrames (h : Apart parties s) : s.HasFrames (globalFramesOf parties) := by
  intro v hv
  obtain ⟨party, hparty, rfl⟩ := List.mem_map.1 hv
  obtain ⟨global, g, resides, -⟩ := h.resident party hparty
  exact ⟨global, resides.global_lt, resides.root⟩

theorem of_extends (h : Apart parties s) (grow : Extends s s')
    (tables : s.tables.size ≤ s'.tables.size) : Apart parties s' where
  distinct := h.distinct
  resident party hparty := by
    obtain ⟨global, g, resides, converses⟩ := h.resident party hparty
    exact ⟨global, g, resides.of_extends grow tables, converses⟩

theorem join (h : Apart parties s) {table : Nat} {env : Env} (inStore : table < s.tables.size)
    (core : Env.newCore table s = .ok env s') : Apart ((env, []) :: parties) s' := by
  obtain ⟨adds, resides⟩ := Resides.of_newCore inStore h.hasFrames core
  have frames : globalFramesOf ((env, []) :: parties) =
      .cons s.cells.size :: globalFramesOf parties := by
    rw [globalFramesOf, List.map_cons, resides.root, globalFramesOf]
  refine ⟨?_, fun party hparty => ?_⟩
  · rw [frames, List.nodup_cons]
    refine ⟨fun hmem => ?_, h.distinct⟩
    obtain ⟨a, ha, same⟩ := h.hasFrames _ hmem
    cases same
    omega
  · rw [frames]
    rcases List.mem_cons.1 hparty with rfl | hparty
    · exact ⟨_, _, resides, .start⟩
    · obtain ⟨global, g, other, converses⟩ := h.resident party hparty
      have welcomed := other.welcome (Nat.le_refl s.cells.size)
      exact ⟨global, g, welcomed.of_extends adds.toExtends adds.tableCount.ge, converses⟩

theorem line {before after : List (Env × Log)} {env : Env} {log : Log} {width depth : Nat}
    {line : String} {outcome : Except Fault String}
    (h : Apart (before ++ (env, log) :: after) s)
    (attempt : ((Engine.core width depth).rep env line).attempt s = .ok outcome s') :
    Apart (before ++ (env, log ++ [(line, outcome)]) :: after) s' := by
  have frames : globalFramesOf (before ++ (env, log ++ [(line, outcome)]) :: after) =
      globalFramesOf (before ++ (env, log) :: after) := by
    simp only [globalFramesOf, List.map_append, List.map_cons]
  have hasFrames := h.hasFrames
  have own : (env, log) ∈ before ++ (env, log) :: after := by simp
  obtain ⟨global, g, resides, converses⟩ := h.resident _ own
  obtain ⟨g', responds, resides', grow, tables⟩ := resides.responds hasFrames attempt
  have hmem : Value.cons global ∈ globalFramesOf (before ++ (env, log) :: after) :=
    List.mem_map.2 ⟨_, own, resides.root⟩
  refine ⟨frames ▸ h.distinct, fun party hparty => ?_⟩
  rw [frames]
  by_cases same : party = (env, log ++ [(line, outcome)])
  · subst same
    exact ⟨global, g', resides', converses.line responds⟩
  · have other : party ∈ before ∨ party ∈ after := by
      simpa [same] using hparty
    obtain ⟨global', g'', resides'', converses'⟩ := h.resident party (by
      rcases other with hparty | hparty <;> simp [hparty])
    refine ⟨global', g'', resides''.beside grow hmem (fun e => ?_) tables, converses'⟩
    -- The frames of two of the interpreters would be the same.
    have distinct := h.distinct
    have root := resides.root.trans (e ▸ resides''.root.symm)
    simp only [globalFramesOf, List.map_append, List.map_cons, List.nodup_append, List.nodup_cons,
      List.mem_map, List.mem_cons] at distinct
    rcases other with hparty | hparty
    · exact distinct.2.2 _ ⟨party, hparty, rfl⟩ _ (.inl rfl) root.symm
    · exact distinct.2.1.1 ⟨party, hparty, root.symm⟩

end Apart

theorem Store.extends_newTable (s : Store) : Extends s s.newTable.2 where
  cells _ _ h := h
  closures _ _ h := h
  symbols table name sym h := by
    have ht : table < s.tables.size := by
      by_contra hlt
      simp [findSymbol?, symbols, Array.getElem?_eq_none (Nat.le_of_not_lt hlt)] at h
    simpa only [findSymbol?, symbols, newTable, Array.getElem?_push_lt ht,
      Array.getElem?_eq_getElem ht] using h

theorem Shared.apart {parties : List (Env × Log)} {s : Store} (h : Shared parties s) :
    Apart parties s := by
  induction h with
  | start => exact ⟨.nil, by simp⟩
  | @table _ s _ ih => exact ih.of_extends s.extends_newTable (by simp [Store.newTable])
  | @intern _ s _ table name ih =>
    exact ih.of_extends (s.extends_intern table name) (s.addsData_intern table name).tableCount.ge
  | join _ inStore core ih => exact ih.join inStore core
  | line _ attempt ih => exact ih.line attempt

theorem Shared.attempts {env : Env} {log : Log} {width depth : Nat} {lines : List String}
    {outs : List (Except Fault String)} {s s' : Store} (h : Shared [(env, log)] s)
    (run : lines.mapM (fun line => ((Engine.core width depth).rep env line).attempt) s =
      .ok outs s') : ∃ log', Shared [(env, log')] s' ∧
        log'.map Prod.fst = log.map Prod.fst ++ lines ∧
        log'.map Prod.snd = log.map Prod.snd ++ outs := by
  induction lines generalizing log s outs with
  | nil =>
    obtain ⟨rfl, rfl⟩ := Run.mapM_nil_eq_ok_iff.1 run
    exact ⟨log, h, by simp, by simp⟩
  | cons line lines ih =>
    obtain ⟨outcome, t, outs, attempt, others, rfl⟩ := Run.mapM_cons_eq_ok_iff.1 run
    obtain ⟨log', h', lines', outs'⟩ := ih (@Shared.line [] [] _ _ _ _ _ _ _ _ h attempt) others
    exact ⟨log', h', by simpa using lines', by simpa using outs'⟩

theorem Shared.of_outcomes {width depth : Nat} {lines : List String}
    {outs : List (Except Fault String)} {s : Store}
    (h : (Engine.core width depth).outcomes lines Store.empty = .ok outs s) : ∃ env log,
      Shared [(env, log)] s ∧ log.map Prod.fst = lines ∧ log.map Prod.snd = outs := by
  obtain ⟨env, s₀, fresh, run⟩ := Run.bind_eq_ok_iff.1 h
  obtain ⟨log, shared, hlines, houts⟩ := (Shared.start.session fresh).attempts run
  exact ⟨env, log, shared, hlines, houts⟩

/-- What becomes of the lines of an interpreter that shares its store with others is what becomes of
them in a fresh session under all large enough bounds, and no bounds give anything else there. -/
theorem Shared.outcomes_eq {parties : List (Env × Log)} {s : Store} (h : Shared parties s)
    {env : Env} {log : Log} (mem : (env, log) ∈ parties) :
    (∃ n s', ∀ width depth, n ≤ width → n ≤ depth →
      (Engine.core width depth).outcomes (log.map Prod.fst) Store.empty =
        .ok (log.map Prod.snd) s') ∧
    ∀ width depth outs s',
      (Engine.core width depth).outcomes (log.map Prod.fst) Store.empty = .ok outs s' →
        outs = log.map Prod.snd := by
  obtain ⟨global, g, -, converses⟩ := h.apart.resident _ mem
  refine ⟨converses.outcomes, fun width depth outs s' run => ?_⟩
  obtain ⟨env', log', shared, hlines, rfl⟩ := Shared.of_outcomes run
  obtain ⟨global', g', -, converses'⟩ := shared.apart.resident _ (List.mem_singleton.2 rfl)
  obtain ⟨rfl, -⟩ := converses'.unique converses hlines
  rfl

/-- Two interpreters on one table: the second one knows nothing of what the first one defines under
a name that both use. -/
theorem Shared.outcomes_eq_same_table : ∃ a b s, a.table = b.table ∧
    s.isInterned b.table "f" = true ∧
    Shared [(b, [("f", .ok "<error: f has no value>")]), (a, [("(defun f (x) x)", .ok "f")])] s ∧
    (∃ n s', ∀ width depth, n ≤ width → n ≤ depth →
      (Engine.core width depth).outcomes ["f"] Store.empty =
        .ok [.ok "<error: f has no value>"] s') ∧
    ∀ width depth outs s',
      (Engine.core width depth).outcomes ["f"] Store.empty = .ok outs s' →
        outs = [.ok "<error: f has no value>"] := by
  have run : (match (do
        let a ← Env.newSession
        let first ← ((Engine.core 4 4).rep a "(defun f (x) x)").attempt
        let b ← Env.newCore a.table
        let second ← ((Engine.core 4 4).rep b "f").attempt
        return (a, first, b, second) : Run (Env × Except Fault String × Env ×
          Except Fault String)) Store.empty with
      | .ok (a, .ok first, b, .ok second) s =>
        some (decide (a.table = b.table), s.isInterned b.table "f", first, second)
      | .ok (_, .ok _, _, .error _) _ => none
      | .ok (_, .error _, _, _) _ => none
      | .error _ _ => none) = some (true, true, "f", "<error: f has no value>") := by decide +kernel
  split at run
  · next a first b second s run' =>
    simp only [Option.some.injEq, Prod.mk.injEq, decide_eq_true_iff] at run
    obtain ⟨sameTable, interned, rfl, rfl⟩ := run
    simp only [Run.bind_eq_ok_iff, Run.pure_apply] at run'
    obtain ⟨_, s₁, fresh, _, s₂, definition, _, s₃, core, _, s₄, question, same⟩ := run'
    cases same
    have one := @Shared.line [] [] _ _ _ _ _ _ _ _ (Shared.start.session fresh) definition
    obtain ⟨global, g, resides, -⟩ := one.apart.resident _ (List.mem_singleton.2 rfl)
    have two := @Shared.line [] _ _ _ _ _ _ _ _ _ (one.join resides.represents.hasTable core)
      question
    have alone := @Shared.outcomes_eq _ _ two b [("f", .ok "<error: f has no value>")]
      List.mem_cons_self
    exact ⟨a, b, s, sameTable, interned, two, alone⟩
  · cases run
  · cases run
  · cases run

end PocketLisp
