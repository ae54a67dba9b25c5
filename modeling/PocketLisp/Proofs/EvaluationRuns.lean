import PocketLisp.Proofs.EvaluationRules

/-!
# Runs follow the rules

An engine without host procedures that has an answer has one that the rules derive, and every
answer that the rules derive is the answer of all engines with large enough bounds. So the rules
derive at most one answer.
-/
namespace PocketLisp

def noHost : Host := fun _ _ _ => pure .nil

theorem set_apply_of_some {e : Env} {s : Store} {frame : Cell} (h : s.cell? e.frames = some frame)
    (key value : Value) : e.set key value s = .ok ⟨⟩ (s.bind e.frames frame.car key value) := by
  simp only [Env.set, Run.look_bind_apply, h]
  rfl

theorem Store.cell?_eq_some {s : Store} {v : Value} {c : Cell} (h : s.cell? v = some c) :
    ∃ a, v = .cons a ∧ s.cells[a]? = some c := by
  cases v with
  | cons a => exact ⟨a, rfl, h⟩
  | _ => cases h

section steps

variable (width : Nat) (answer : Request → Run Value)

theorem callStep_apply (procedure : Procedure) (args : Value) (s : Store) :
    callStep noHost answer procedure args s =
      .ok (s.call procedure args).1 (s.call procedure args).2 := by
  cases procedure <;> rfl

theorem evalCell_apply {host : Host} (op args : Value) (env : Env) (s : Store) :
    evalCell host width answer op args env s =
      (match (s.keyword env.table op).1 with
        | some .quote => Run.look (·.car args)
        | some .conditional => evalIf answer args env
        | some .lambda => newClosure args env
        | some .defun => evalDefun args env
        | none => evalApplication host width answer op args env)
      (s.keyword env.table op).2 := by
  simp only [evalCell, Run.make_bind_apply, Store.keyword, keywords, Store.keywordAmong]
  by_cases hq : op = (s.intern env.table "quote").1
  · simp only [if_pos hq]
  simp only [if_neg hq, Run.make_bind_apply]
  by_cases hi : op = ((s.intern env.table "quote").2.intern env.table "if").1
  · simp only [if_pos hi]
  simp only [if_neg hi, Run.make_bind_apply]
  by_cases hl : op =
      (((s.intern env.table "quote").2.intern env.table "if").2.intern env.table "lambda").1
  · simp only [if_pos hl]
  simp only [if_neg hl, Run.make_bind_apply]
  by_cases hd : op = ((((s.intern env.table "quote").2.intern env.table "if").2.intern env.table
      "lambda").2.intern env.table "defun").1
  · simp only [if_pos hd]
  · simp only [if_neg hd]

theorem asClosure_eq_ok_iff {k : Nat} {c : Closure} {s s' : Store} :
    asClosure (.expr k) s = .ok c s' ↔ s.closures[k]? = some c ∧ s' = s := by
  simp only [asClosure, Run.look_bind_apply, Store.closure?]
  cases s.closures[k]? with
  | some d =>
    constructor
    · rintro h
      cases h
      exact ⟨rfl, rfl⟩
    · rintro ⟨h, rfl⟩
      cases h
      rfl
  | none => simp

theorem newClosure_apply (args : Value) (env : Env) (s : Store) :
    newClosure args env s =
      .ok (s.closure (s.car args) (s.cdr args) env).1 (s.closure (s.car args) (s.cdr args) env).2 :=
  rfl

theorem evalDefun_apply_of_some {args f : Value} {env : Env} {s s₂ : Store} {frame : Cell}
    (function : s.closure (s.car (s.cdr args)) (s.cdr (s.cdr args)) env = (f, s₂))
    (global : s₂.cell? env.globalFrames = some frame) :
    evalDefun args env s =
      .ok (s.car args) (s₂.bind env.globalFrames frame.car (s.car args) f) := by
  have closure := newClosure_apply (s.cdr args) env s
  rw [function] at closure
  simp only [evalDefun, Run.look_bind_apply]
  rw [Run.bind_apply_of_ok closure,
    Run.bind_apply_of_ok (set_apply_of_some (e := env.global) global _ f)]
  rfl

theorem evalDefun_eq_ok {args v : Value} {env : Env} {s s' : Store}
    (h : evalDefun args env s = .ok v s') :
    ∃ f s₂ frame, s.closure (s.car (s.cdr args)) (s.cdr (s.cdr args)) env = (f, s₂) ∧
      s₂.cell? env.globalFrames = some frame ∧ v = s.car args ∧
      s' = s₂.bind env.globalFrames frame.car (s.car args) f := by
  generalize hc : s.closure (s.car (s.cdr args)) (s.cdr (s.cdr args)) env = c
  obtain ⟨f, s₂⟩ := c
  cases hframe : s₂.cell? env.globalFrames with
  | some frame =>
    rw [evalDefun_apply_of_some hc hframe] at h
    cases h
    exact ⟨f, s₂, frame, rfl, hframe, rfl, rfl⟩
  | none =>
    have closure := newClosure_apply (s.cdr args) env s
    rw [hc] at closure
    simp only [evalDefun, Run.look_bind_apply] at h
    rw [Run.bind_apply_of_ok closure, Run.bind_eq_ok_iff] at h
    obtain ⟨_, _, hset, -⟩ := h
    simp only [Env.set, Env.global, Run.look_bind_apply, hframe, Run.fault_apply] at hset
    cases hset

theorem evalStep_symbol (sym : Symbol) (env : Env) (s : Store) :
    evalStep noHost width answer (.sym sym) env s =
      match s.findPair? env.frames (.sym sym) with
      | some pair => .ok (s.cdr pair) s
      | none => .ok (s.error (sym.name ++ " has no value")).1
          (s.error (sym.name ++ " has no value")).2 := by
  simp only [evalStep, Env.get, Env.find?, Run.look_bind_apply]
  cases s.findPair? env.frames (.sym sym) with
  | some pair => rfl
  | none => simp only [Run.look_bind_apply, Run.make_apply, Store.print_sym]

theorem evalStep_self {form : Value} {env : Env} {s : Store} (symbol : ∀ sym, form ≠ .sym sym)
    (cell : s.cell? form = none) : evalStep noHost width answer form env s = .ok form s := by
  cases form with
  | sym sym => exact absurd rfl (symbol sym)
  | _ => simp only [evalStep, Run.look_bind_apply, cell, Run.pure_apply]

theorem evalStep_cell {host : Host} {a : Nat} {op args : Value} {env : Env} {s : Store}
    (cell : s.cells[a]? = some ⟨op, args⟩) :
    evalStep host width answer (.cons a) env s = evalCell host width answer op args env s := by
  simp only [evalStep, Run.look_bind_apply, Store.cell?, cell]

/-- An error that is the value of the head goes through, whatever the arguments are. -/
theorem applyStep_headError {host : Host} {f : Value} (error : f.isError = true) (args : Value)
    (s : Store) : applyStep host width answer f args s = .ok f s := by
  simp only [applyStep, error]
  rfl

theorem applyStep_argsError {host : Host} {f args : Value} (noError : f.isError = false)
    (error : args.isError = true) (s : Store) :
    applyStep host width answer f args s = .ok args s := by
  simp only [applyStep, noError, error]
  rfl

theorem applyStep_closure {k : Nat} {c : Closure} {args : Value} {env : Env} {s s₁ : Store}
    (noError : args.isError = false) (closure : s.closures[k]? = some c)
    (frame : s.extend c.env c.params args = (env, s₁)) :
    applyStep noHost width answer (.expr k) args s =
      evalBody (fun form => answer (.eval form env)) width .nil c.body s₁ := by
  have hf : (Value.expr k).isError = false := rfl
  have hframe := c.env.extend_apply c.params args s
  rw [frame] at hframe
  simp only [applyStep, hf, noError]
  exact (Run.bind_apply_of_ok (asClosure_eq_ok_iff.2 ⟨closure, rfl⟩) _).trans
    (Run.bind_apply_of_ok hframe _)

theorem applyStep_other {f args : Value} {s : Store} (noError : f.isError = false)
    (noArgsError : args.isError = false) (subr : ∀ serial procedure, f ≠ .subr serial procedure)
    (closure : ∀ k, f ≠ .expr k) :
    applyStep noHost width answer f args s =
      .ok (s.error (s.print f ++ " is not function")).1
        (s.error (s.print f ++ " is not function")).2 := by
  simp only [applyStep, noError, noArgsError]
  cases f with
  | subr serial procedure => exact absurd rfl (subr serial procedure)
  | expr k => exact absurd rfl (closure k)
  | _ => rfl

end steps

section soundness

variable {width : Nat} {answer : Request → Run Value}

theorem evalList_sound {eval : Value → Run Value} {env : Env}
    (sound : ∀ {form s v s'}, eval form s = .ok v s' → Answers (.eval form env) s v s')
    {done : List Value} {forms v : Value} {s s' : Store}
    (h : evalList eval width done forms s = .ok v s') : Answers (.args done forms env) s v s' := by
  induction width generalizing done forms s with
  | zero => cases h
  | succ width ih =>
    simp only [evalList, Run.look_bind_apply] at h
    cases hcell : s.cell? forms with
    | none =>
      simp only [hcell, Run.make_apply] at h
      cases h
      exact .argsEnd hcell
    | some c =>
      obtain ⟨a, rfl, cell⟩ := Store.cell?_eq_some hcell
      simp only [hcell, Run.bind_eq_ok_iff] at h
      obtain ⟨w, t, hw, h⟩ := h
      split at h
      · next error =>
        cases h
        exact .argsError cell (sound hw) error
      · next noError =>
        simp only [Run.look_bind_apply] at h
        exact .argsNext cell (sound hw) (by simpa using noError) (ih h)

theorem evalBody_sound {eval : Value → Run Value} {env : Env}
    (sound : ∀ {form s v s'}, eval form s = .ok v s' → Answers (.eval form env) s v s')
    {last forms v : Value} {s s' : Store}
    (h : evalBody eval width last forms s = .ok v s') : Answers (.body last forms env) s v s' := by
  induction width generalizing last forms s with
  | zero => cases h
  | succ width ih =>
    simp only [evalBody, Run.look_bind_apply] at h
    cases hcell : s.cell? forms with
    | none =>
      simp only [hcell, Run.pure_apply] at h
      cases h
      exact .bodyEnd hcell
    | some c =>
      obtain ⟨a, rfl, cell⟩ := Store.cell?_eq_some hcell
      simp only [hcell, Run.bind_eq_ok_iff] at h
      obtain ⟨w, t, hw, h⟩ := h
      rw [Run.look_apply] at h
      obtain ⟨rest, _, hrest, h⟩ := h
      cases hrest
      exact .bodyNext cell (sound hw) (ih h)

variable (sound : ∀ {form env s v s'}, answer (.eval form env) s = .ok v s' →
  Answers (.eval form env) s v s')
include sound

theorem applyStep_sound {f args v : Value} {s s' : Store}
    (h : applyStep noHost width answer f args s = .ok v s') : Answers (.apply f args) s v s' := by
  unfold applyStep at h
  split at h
  · next error =>
    cases h
    exact .applyError error
  · next noError =>
    split at h
    · next error =>
      cases h
      exact .applyArgsError (by simpa using noError) error
    · next noArgsError =>
      rw [Bool.not_eq_true] at noError noArgsError
      split at h
      · next serial procedure =>
        rw [callStep_apply] at h
        cases h
        exact .applySubr noArgsError
      · next k =>
        rw [Run.bind_eq_ok_iff] at h
        obtain ⟨c, _, hc, h⟩ := h
        obtain ⟨closure, rfl⟩ := asClosure_eq_ok_iff.1 hc
        rw [Run.bind_apply_of_ok (c.env.extend_apply c.params args _)] at h
        exact .applyClosure noArgsError closure rfl (evalBody_sound sound h)
      · next hsubr hexpr =>
        simp only [Run.look_bind_apply, Run.make_apply] at h
        cases h
        exact .applyOther noError noArgsError hsubr hexpr

theorem evalStep_sound {form v : Value} {env : Env} {s s' : Store}
    (h : evalStep noHost width answer form env s = .ok v s') :
    Answers (.eval form env) s v s' := by
  cases hcell : s.cell? form with
  | none =>
    by_cases hsym : ∃ sym, form = .sym sym
    · obtain ⟨sym, rfl⟩ := hsym
      rw [evalStep_symbol] at h
      cases hfind : s.findPair? env.frames (.sym sym) with
      | some pair =>
        rw [hfind] at h
        cases h
        exact .bound hfind
      | none =>
        rw [hfind] at h
        cases h
        exact .unbound hfind
    · rw [evalStep_self width answer (fun sym e => hsym ⟨sym, e⟩) hcell] at h
      cases h
      exact .self (fun sym e => hsym ⟨sym, e⟩) hcell
  | some c =>
    obtain ⟨a, rfl, cell⟩ := Store.cell?_eq_some hcell
    rw [evalStep_cell width answer cell, evalCell_apply] at h
    obtain ⟨op, args⟩ := c
    cases hhead : s.keyword env.table op with | mk k s₁ =>
    rw [hhead] at h
    cases k with
    | none =>
      simp only [evalApplication, Run.bind_eq_ok_iff] at h
      obtain ⟨f, s₂, hf, values, s₃, hvalues, h⟩ := h
      exact .application cell hhead (sound hf) (evalList_sound sound hvalues)
        (applyStep_sound sound h)
    | some k =>
      cases k with
      | quote =>
        cases h
        exact .quote cell hhead
      | conditional =>
        simp only [evalIf, Run.look_bind_apply, Run.bind_eq_ok_iff] at h
        obtain ⟨condition, s₂, htest, h⟩ := h
        split at h
        · next error =>
          cases h
          exact .testError cell hhead (sound htest) error
        · next noError =>
          exact .conditional cell hhead (sound htest) (by simpa using noError) (sound h)
      | lambda =>
        cases h
        exact .lambda cell hhead
      | defun =>
        obtain ⟨f, s₂, frame, function, global, rfl, rfl⟩ := evalDefun_eq_ok h
        exact .defun cell hhead function global

end soundness

/-- What an engine without host procedures answers is derived by the rules. -/
theorem answers_of_run {width depth : Nat} {form v : Value} {env : Env} {s s' : Store}
    (h : run noHost width depth (.eval form env) s = .ok v s') :
    Answers (.eval form env) s v s' := by
  induction depth generalizing form env s v s' with
  | zero => cases h
  | succ depth ih => exact evalStep_sound ih h

/-- The computation for a goal, with bounds on the lengths of lists, on the nesting of requests and
on the list that is being walked. -/
def Goal.runWithin (width depth fuel : Nat) : Goal → Run Value
  | .eval form env => run noHost width depth (.eval form env)
  | .args done forms env =>
    evalList (fun form => run noHost width depth (.eval form env)) fuel done forms
  | .body last forms env =>
    evalBody (fun form => run noHost width depth (.eval form env)) fuel last forms
  | .apply f values => applyStep noHost width (run noHost width depth) f values

/-- A step with large enough bounds below it is a run with large enough bounds. -/
private theorem runWithin_eval_of_step {form v : Value} {env : Env} {s s' : Store}
    (h : ∃ n, ∀ width depth, n ≤ width → n ≤ depth →
      evalStep noHost width (run noHost width depth) form env s = .ok v s') :
    ∃ n, ∀ width depth fuel, n ≤ width → n ≤ depth → n ≤ fuel →
      (Goal.eval form env).runWithin width depth fuel s = .ok v s' := by
  obtain ⟨n, h⟩ := h
  refine ⟨n + 1, ?_⟩
  intro width depth fuel hw hd _
  obtain ⟨depth, rfl⟩ : ∃ d, depth = d + 1 := ⟨depth - 1, by omega⟩
  exact h width depth (by omega) (by omega)

/-- A walk along a list takes one round more than the walk along the rest of it. -/
private theorem runWithin_of_round {g : Goal} {v : Value} {s s' : Store}
    (h : ∃ n, ∀ width depth fuel, n ≤ width → n ≤ depth → n ≤ fuel →
      g.runWithin width depth (fuel + 1) s = .ok v s') :
    ∃ n, ∀ width depth fuel, n ≤ width → n ≤ depth → n ≤ fuel →
      g.runWithin width depth fuel s = .ok v s' := by
  obtain ⟨n, h⟩ := h
  refine ⟨n + 1, ?_⟩
  intro width depth fuel hw hd hf
  obtain ⟨fuel, rfl⟩ : ∃ f, fuel = f + 1 := ⟨fuel - 1, by omega⟩
  exact h width depth fuel (by omega) (by omega) (by omega)

private theorem run_of_runWithin {form v : Value} {env : Env} {s s' : Store} {n : Nat}
    (h : ∀ width depth fuel, n ≤ width → n ≤ depth → n ≤ fuel →
      (Goal.eval form env).runWithin width depth fuel s = .ok v s')
    {width depth : Nat} (hw : n ≤ width) (hd : n ≤ depth) :
    run noHost width depth (.eval form env) s = .ok v s' :=
  h width depth n hw hd (Nat.le_refl n)

/-- Large enough bounds give an answer that the rules derive. -/
theorem Answers.runWithin {g : Goal} {s s' : Store} {v : Value} (h : Answers g s v s') :
    ∃ n, ∀ width depth fuel, n ≤ width → n ≤ depth → n ≤ fuel →
      g.runWithin width depth fuel s = .ok v s' := by
  induction h with
  | bound found =>
    refine runWithin_eval_of_step ⟨0, ?_⟩
    intro width depth _ _
    rw [evalStep_symbol, found]
  | unbound missing =>
    refine runWithin_eval_of_step ⟨0, ?_⟩
    intro width depth _ _
    rw [evalStep_symbol, missing]
  | self symbol cell =>
    exact runWithin_eval_of_step ⟨0, fun width depth _ _ => evalStep_self width _ symbol cell⟩
  | quote cell head =>
    refine runWithin_eval_of_step ⟨0, ?_⟩
    intro width depth _ _
    rw [evalStep_cell width _ cell, evalCell_apply, head]
    rfl
  | testError cell head _ error ih =>
    obtain ⟨n, ih⟩ := ih
    refine runWithin_eval_of_step ⟨n, ?_⟩
    intro width depth hw hd
    rw [evalStep_cell width _ cell, evalCell_apply, head]
    simp only [evalIf, Run.look_bind_apply]
    rw [Run.bind_apply_of_ok (run_of_runWithin ih hw hd), if_pos error]
    rfl
  | conditional cell head _ noError _ ihTest ihBranch =>
    obtain ⟨n, ihTest⟩ := ihTest
    obtain ⟨m, ihBranch⟩ := ihBranch
    refine runWithin_eval_of_step ⟨n + m, ?_⟩
    intro width depth hw hd
    rw [evalStep_cell width _ cell, evalCell_apply, head]
    simp only [evalIf, Run.look_bind_apply]
    rw [Run.bind_apply_of_ok (run_of_runWithin ihTest (by omega) (by omega))]
    rw [if_neg (by simp [noError]), Run.look_bind_apply]
    exact run_of_runWithin ihBranch (by omega) (by omega)
  | lambda cell head =>
    refine runWithin_eval_of_step ⟨0, ?_⟩
    intro width depth _ _
    rw [evalStep_cell width _ cell, evalCell_apply, head]
    rfl
  | defun cell head function global =>
    refine runWithin_eval_of_step ⟨0, ?_⟩
    intro width depth _ _
    rw [evalStep_cell width _ cell, evalCell_apply, head]
    exact evalDefun_apply_of_some function global
  | application cell head _ _ _ ihFunction ihArguments ihResult =>
    obtain ⟨n, ihFunction⟩ := ihFunction
    obtain ⟨m, ihArguments⟩ := ihArguments
    obtain ⟨k, ihResult⟩ := ihResult
    refine runWithin_eval_of_step ⟨n + m + k, ?_⟩
    intro width depth hw hd
    rw [evalStep_cell width _ cell, evalCell_apply, head]
    simp only [evalApplication]
    rw [Run.bind_apply_of_ok (run_of_runWithin ihFunction (by omega) (by omega))]
    have values := ihArguments width depth width (by omega) (by omega) (by omega)
    rw [Goal.runWithin] at values
    rw [Run.bind_apply_of_ok values]
    exact ihResult width depth k (by omega) (by omega) (by omega)
  | argsEnd cell =>
    refine runWithin_of_round ⟨0, ?_⟩
    intro width depth fuel _ _ _
    simp only [Goal.runWithin, evalList, Run.look_bind_apply, cell, Run.make_apply]
  | argsError cell _ error ih =>
    obtain ⟨n, ih⟩ := ih
    refine runWithin_of_round ⟨n, ?_⟩
    intro width depth fuel hw hd _
    simp only [Goal.runWithin, evalList, Run.look_bind_apply, Store.cell?, cell]
    rw [Run.bind_apply_of_ok (run_of_runWithin ih hw hd), if_pos error]
    rfl
  | argsNext cell _ noError _ ih ihOthers =>
    obtain ⟨n, ih⟩ := ih
    obtain ⟨m, ihOthers⟩ := ihOthers
    refine runWithin_of_round ⟨n + m, ?_⟩
    intro width depth fuel hw hd hf
    simp only [Goal.runWithin, evalList, Run.look_bind_apply, Store.cell?, cell]
    rw [Run.bind_apply_of_ok (run_of_runWithin ih (by omega) (by omega))]
    rw [if_neg (by simp [noError]), Run.look_bind_apply]
    exact ihOthers width depth fuel (by omega) (by omega) (by omega)
  | bodyEnd cell =>
    refine runWithin_of_round ⟨0, ?_⟩
    intro width depth fuel _ _ _
    simp only [Goal.runWithin, evalBody, Run.look_bind_apply, cell, Run.pure_apply]
  | bodyNext cell _ _ ih ihOthers =>
    obtain ⟨n, ih⟩ := ih
    obtain ⟨m, ihOthers⟩ := ihOthers
    refine runWithin_of_round ⟨n + m, ?_⟩
    intro width depth fuel hw hd hf
    simp only [Goal.runWithin, evalBody, Run.look_bind_apply, Store.cell?, cell]
    rw [Run.bind_apply_of_ok (run_of_runWithin ih (by omega) (by omega)), Run.look_bind_apply]
    exact ihOthers width depth fuel (by omega) (by omega) (by omega)
  | applyError error =>
    exact ⟨0, fun width depth fuel _ _ _ => applyStep_headError width _ error _ _⟩
  | applyArgsError noError error =>
    exact ⟨0, fun width depth fuel _ _ _ => applyStep_argsError width _ noError error _⟩
  | applySubr noError =>
    refine ⟨0, ?_⟩
    intro width depth fuel _ _ _
    simp only [Goal.runWithin, applyStep, noError]
    exact callStep_apply _ _ _ _
  | applyClosure noError closure frame _ ih =>
    obtain ⟨n, ih⟩ := ih
    refine ⟨n, ?_⟩
    intro width depth fuel hw hd _
    rw [Goal.runWithin, applyStep_closure width _ noError closure frame]
    exact ih width depth width hw hd hw
  | applyOther noError noArgsError subr closure =>
    refine ⟨0, ?_⟩
    intro width depth fuel _ _ _
    exact applyStep_other width _ noError noArgsError subr closure

/-- The rules derive exactly what some engine answers. -/
theorem answers_eval_iff {form v : Value} {env : Env} {s s' : Store} :
    Answers (.eval form env) s v s' ↔
      ∃ width depth, run noHost width depth (.eval form env) s = .ok v s' := by
  constructor
  · intro h
    obtain ⟨n, h⟩ := h.runWithin
    exact ⟨n, n, h n n n (Nat.le_refl _) (Nat.le_refl _) (Nat.le_refl _)⟩
  · rintro ⟨width, depth, h⟩
    exact answers_of_run h

theorem Answers.unique {g : Goal} {s s₁ s₂ : Store} {v₁ v₂ : Value} (h₁ : Answers g s v₁ s₁)
    (h₂ : Answers g s v₂ s₂) : v₁ = v₂ ∧ s₁ = s₂ := by
  obtain ⟨n, h₁⟩ := h₁.runWithin
  obtain ⟨m, h₂⟩ := h₂.runWithin
  have e₁ := h₁ (n + m) (n + m) (n + m) (by omega) (by omega) (by omega)
  have e₂ := h₂ (n + m) (n + m) (n + m) (by omega) (by omega) (by omega)
  cases e₁.symm.trans e₂
  exact ⟨rfl, rfl⟩

end PocketLisp
