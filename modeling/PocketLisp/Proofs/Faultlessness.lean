import PocketLisp.Proofs.Confinement

/-!
# Evaluation does not fault

A fault stops an evaluation if a closure is not there or if there is no frame for a definition. In a
realm whose environments all have a global frame neither can happen, since what is confined is
there: an evaluation has a value or runs out of bounds.
-/
namespace PocketLisp

/-- The computation has a value or runs out of bounds. -/
def NoFault {α : Type} (x : Run α) (s : Store) : Prop := ∀ f s', x s ≠ .error (.fault f) s'

namespace NoFault
variable {α β : Type} {s : Store}

theorem of_ok {x : Run α} {a : α} {s' : Store} (h : x s = .ok a s') : NoFault x s := by
  intro f t e
  cases h.symm.trans e

theorem of_eq {x y : Run α} {s' : Store} (h : x s = y s') (hy : NoFault y s') : NoFault x s := by
  intro f t e
  exact hy f t (h.symm.trans e)

theorem bind {x : Run α} {k : α → Run β} (first : NoFault x s)
    (next : ∀ a t, x s = .ok a t → NoFault (k a) t) : NoFault (x >>= k) s := by
  intro f s' h
  change EStateM.bind x k s = _ at h
  cases hx : x s with
  | ok a t =>
    simp only [EStateM.bind, hx] at h
    exact next a t hx f s' h
  | error e t =>
    simp only [EStateM.bind, hx] at h
    cases h
    exact first f _ hx

theorem look {g : Store → α} {k : α → Run β} (next : NoFault (k (g s)) s) :
    NoFault (Run.look g >>= k) s := next

end NoFault

/-- All environments of the realm have a global frame, and all cells from the given one on belong to
it. -/
structure Realm.Framed (R : Realm) (bound : Nat) : Prop where
  frames : ∀ table v, R.envs table v → ∃ a, v = .cons a
  fresh : ∀ a, bound ≤ a → R.cells a

section requests

variable {R : Realm} {bound width depth : Nat} (framed : R.Framed bound)
  (evals : ∀ {form : Value} {env : Env} {s : Store}, bound ≤ s.cells.size → Confined R s form →
    env.ConfinedTo R s → NoFault (run noHost width depth (.eval form env)) s)
include framed

/-- The value of a form, and what holds after it has been evaluated. -/
private theorem run_eval_confined {form v : Value} {env : Env} {s s' : Store}
    (hs : bound ≤ s.cells.size) (hform : Confined R s form) (henv : env.ConfinedTo R s)
    (h : run noHost width depth (.eval form env) s = .ok v s') :
    (∀ x, Confined R s x → Confined R s' x) ∧ Yields R s' v ∧ bound ≤ s'.cells.size := by
  obtain ⟨keep, value, size⟩ := (answers_of_run h).confined ⟨hform, henv⟩
    fun a ha => framed.fresh a (Nat.le_trans hs ha)
  exact ⟨keep, value, Nat.le_trans hs size⟩

include evals

theorem evalList_noFault {fuel : Nat} {done : List Value} {forms : Value} {env : Env} {s : Store}
    (hs : bound ≤ s.cells.size) (hforms : Confined R s forms) (henv : env.ConfinedTo R s) :
    NoFault (evalList (fun form => run noHost width depth (.eval form env)) fuel done forms) s := by
  induction fuel generalizing done forms s with
  | zero => exact fun f s' h => by cases h
  | succ fuel ih =>
    refine NoFault.look ?_
    cases hcell : s.cell? forms with
    | none => exact .of_ok rfl
    | some c =>
      have form := (hforms.parts_of_cell? hcell).1
      refine (evals hs form henv).bind fun v t hv => ?_
      obtain ⟨keep, -, ht⟩ := run_eval_confined framed hs form henv hv
      split
      · exact .of_ok rfl
      · exact NoFault.look (ih ht (keep _ hforms).cdr (henv.keep keep))

theorem evalBody_noFault {fuel : Nat} {last forms : Value} {env : Env} {s : Store}
    (hs : bound ≤ s.cells.size) (hforms : Confined R s forms) (henv : env.ConfinedTo R s) :
    NoFault (evalBody (fun form => run noHost width depth (.eval form env)) fuel last forms) s := by
  induction fuel generalizing last forms s with
  | zero => exact fun f s' h => by cases h
  | succ fuel ih =>
    refine NoFault.look ?_
    cases hcell : s.cell? forms with
    | none => exact .of_ok rfl
    | some c =>
      have form := (hforms.parts_of_cell? hcell).1
      refine (evals hs form henv).bind fun v t hv => ?_
      obtain ⟨keep, -, ht⟩ := run_eval_confined framed hs form henv hv
      exact NoFault.look (ih ht (keep _ hforms).cdr (henv.keep keep))

theorem applyStep_noFault {f args : Value} {s : Store} (hs : bound ≤ s.cells.size)
    (hf : Yields R s f) (hargs : Yields R s args) :
    NoFault (applyStep noHost width (run noHost width depth) f args) s := by
  cases error : f.isError with
  | true => exact .of_ok (applyStep_headError width _ error args s)
  | false =>
    cases argsError : args.isError with
    | true => exact .of_ok (applyStep_argsError width _ error argsError s)
    | false =>
      by_cases closure : ∃ k, f = .expr k
      · obtain ⟨k, rfl⟩ := closure
        have confined := hf.confined rfl
        obtain ⟨c, hc, -⟩ := confined.admits
        obtain ⟨params, body, henv⟩ := confined.closure hc
        have fresh := fun a ha => framed.fresh a (Nat.le_trans hs ha)
        have grow := (s.allocates_extend c.env c.params args).toExtends
        refine .of_eq (applyStep_closure width _ argsError hc rfl) ?_
        exact evalBody_noFault framed evals (Nat.le_trans hs grow.size_le) (body.grow grow)
          (henv.extend params (hargs.confined argsError) fresh)
      by_cases subr : ∃ serial procedure, f = .subr serial procedure
      · obtain ⟨serial, procedure, rfl⟩ := subr
        have call : applyStep noHost width (run noHost width depth) (.subr serial procedure) args
            s = callStep noHost (run noHost width depth) procedure args s := by
          simp only [applyStep, error, argsError]
          rfl
        exact .of_ok (call.trans (callStep_apply _ _ _ _))
      · exact .of_ok (applyStep_other width _ error argsError
          (fun serial procedure e => subr ⟨serial, procedure, e⟩) fun k e => closure ⟨k, e⟩)

theorem evalStep_noFault {form : Value} {env : Env} {s : Store} (hs : bound ≤ s.cells.size)
    (hform : Confined R s form) (henv : env.ConfinedTo R s) :
    NoFault (evalStep noHost width (run noHost width depth) form env) s := by
  cases hcell : s.cell? form with
  | none =>
    by_cases symbol : ∃ sym, form = .sym sym
    · obtain ⟨sym, rfl⟩ := symbol
      intro f s'
      rw [evalStep_symbol]
      split <;> simp
    · exact .of_ok (evalStep_self width _ (fun sym e => symbol ⟨sym, e⟩) hcell)
  | some c =>
    obtain ⟨a, rfl, cell⟩ := Store.cell?_eq_some hcell
    obtain ⟨op, args⟩ := c
    refine .of_eq ((evalStep_cell width _ cell).trans (evalCell_apply width _ op args env s)) ?_
    cases head : s.keyword env.table op with | mk k s₁ =>
    obtain ⟨keep, hop, hargs⟩ := hform.keyword cell head
    have henv := henv.keep keep
    have hs := Nat.le_trans hs (addsData_of_keyword head).size_le
    cases k with
    | none =>
      refine (evals hs hop henv).bind fun f s₂ hf => ?_
      obtain ⟨keep, function, hs⟩ := run_eval_confined framed hs hop henv hf
      refine (evalList_noFault framed evals hs (keep _ hargs) (henv.keep keep)).bind ?_
      intro values s₃ hvalues
      have answers := evalList_sound (fun h => answers_of_run h) hvalues
      obtain ⟨keep', values, size⟩ := answers.confined
        ⟨by simp, keep _ hargs, henv.keep keep⟩ fun a ha => framed.fresh a (Nat.le_trans hs ha)
      exact applyStep_noFault framed evals (Nat.le_trans hs size) (function.keep keep') values
    | some k =>
      cases k with
      | quote => exact .of_ok rfl
      | conditional =>
        refine NoFault.look ((evals hs hargs.car henv).bind fun v s₂ hv => ?_)
        obtain ⟨keep, -, hs⟩ := run_eval_confined framed hs hargs.car henv hv
        split
        · exact .of_ok rfl
        · exact NoFault.look (evals hs (keep _ hargs).branch (henv.keep keep))
      | lambda => exact .of_ok rfl
      | defun =>
        obtain ⟨g, hg⟩ := framed.frames _ _ henv.own
        obtain ⟨⟨frame, hframe⟩, -⟩ := (hg ▸ henv.globalFrames).admits
        exact .of_ok (evalDefun_apply_of_some rfl (by rw [hg]; exact hframe))

end requests

/-- In a realm whose environments have a global frame, no evaluation faults. -/
theorem run_noFault {R : Realm} {bound width depth : Nat} (framed : R.Framed bound) {form : Value}
    {env : Env} {s : Store} (hs : bound ≤ s.cells.size) (hform : Confined R s form)
    (henv : env.ConfinedTo R s) : NoFault (run noHost width depth (.eval form env)) s := by
  induction depth generalizing form env s with
  | zero => exact fun f s' h => by cases h
  | succ depth ih => exact evalStep_noFault framed ih hs hform henv

end PocketLisp
