import PocketLisp.Interpreter

/-!
# Computations on a store, step by step

What a computation does to a store is read off its steps: making and looking up go through, and a
computation in sequence has a value exactly if its parts have.
-/
namespace PocketLisp

namespace Run
variable {α β : Type}

@[simp] theorem pure_apply (a : α) (s : Store) : (pure a : Run α) s = .ok a s := rfl

@[simp] theorem make_apply (f : Store → α × Store) (s : Store) :
    Run.make f s = .ok (f s).1 (f s).2 := rfl

@[simp] theorem look_apply (f : Store → α) (s : Store) : Run.look f s = .ok (f s) s := rfl

@[simp] theorem fault_apply (f : Fault) (s : Store) :
    (Run.fault f : Run α) s = .error (.fault f) s := rfl

@[simp] theorem make_bind_apply (f : Store → α × Store) (k : α → Run β) (s : Store) :
    (Run.make f >>= k) s = k (f s).1 (f s).2 := rfl

@[simp] theorem look_bind_apply (f : Store → α) (k : α → Run β) (s : Store) :
    (Run.look f >>= k) s = k (f s) s := rfl

theorem bind_apply_of_ok {x : Run α} {s s' : Store} {a : α} (h : x s = .ok a s')
    (k : α → Run β) : (x >>= k) s = k a s' := by
  show EStateM.bind x k s = k a s'
  simp only [EStateM.bind, h]

theorem bind_apply_of_error {x : Run α} {s s' : Store} {stop : Stop} (h : x s = .error stop s')
    (k : α → Run β) : (x >>= k) s = .error stop s' := by
  show EStateM.bind x k s = .error stop s'
  simp only [EStateM.bind, h]

theorem bind_eq_ok_iff {x : Run α} {k : α → Run β} {s s' : Store} {b : β} :
    (x >>= k) s = .ok b s' ↔ ∃ a t, x s = .ok a t ∧ k a t = .ok b s' := by
  constructor
  · intro h
    change EStateM.bind x k s = .ok b s' at h
    cases hx : x s with
    | ok a t => exact ⟨a, t, rfl, by simpa only [EStateM.bind, hx] using h⟩
    | error e t => simp only [EStateM.bind, hx] at h; cases h
  · rintro ⟨a, t, hx, hk⟩
    rw [bind_apply_of_ok hx, hk]

theorem bind_eq_error_iff {x : Run α} {k : α → Run β} {s s' : Store} {stop : Stop} :
    (x >>= k) s = .error stop s' ↔
      x s = .error stop s' ∨ ∃ a t, x s = .ok a t ∧ k a t = .error stop s' := by
  cases hx : x s with
  | ok a t => simp [bind_apply_of_ok hx, and_assoc]
  | error stop' t => simp [bind_apply_of_error hx]

theorem mapM_nil_eq_ok_iff {f : α → Run β} {bs : List β} {s s' : Store} :
    [].mapM f s = .ok bs s' ↔ bs = [] ∧ s' = s := by
  rw [List.mapM_nil, pure_apply]
  constructor
  · rintro ⟨⟩
    exact ⟨rfl, rfl⟩
  · rintro ⟨rfl, rfl⟩
    rfl

theorem mapM_cons_eq_ok_iff {f : α → Run β} {a : α} {as : List α} {bs : List β} {s s' : Store} :
    (a :: as).mapM f s = .ok bs s' ↔ ∃ b t bs', f a s = .ok b t ∧ as.mapM f t = .ok bs' s' ∧
      bs = b :: bs' := by
  simp only [List.mapM_cons, bind_eq_ok_iff, pure_apply]
  constructor
  · rintro ⟨b, t, hb, bs', _, hbs', ⟨⟩⟩
    exact ⟨b, t, bs', hb, hbs', rfl⟩
  · rintro ⟨b, t, bs', hb, hbs', rfl⟩
    exact ⟨b, t, hb, bs', s', hbs', rfl⟩

theorem mapM_concat {f : α → Run β} {a : α} {as : List α} {b : β} {bs : List β} {s t s' : Store}
    (earlier : as.mapM f s = .ok bs t) (last : f a t = .ok b s') :
    (as ++ [a]).mapM f s = .ok (bs ++ [b]) s' := by
  have single : [a].mapM f t = .ok [b] s' :=
    mapM_cons_eq_ok_iff.2 ⟨b, s', [], last, mapM_nil_eq_ok_iff.2 ⟨rfl, rfl⟩, rfl⟩
  rw [List.mapM_append, bind_apply_of_ok earlier, bind_apply_of_ok single]
  rfl

theorem attempt_eq_ok_iff {x : Run α} {r : Except Fault α} {s s' : Store} :
    x.attempt s = .ok r s' ↔ (∃ a, r = .ok a ∧ x s = .ok a s') ∨
      ∃ f, r = .error f ∧ x s = .error (.fault f) s' := by
  unfold Run.attempt
  cases x s with
  | ok a t =>
    constructor
    · rintro ⟨⟩
      exact .inl ⟨a, rfl, rfl⟩
    · rintro (⟨_, rfl, ⟨⟩⟩ | ⟨_, _, ⟨⟩⟩)
      rfl
  | error stop t =>
    cases stop with
    | fault f =>
      constructor
      · rintro ⟨⟩
        exact .inr ⟨f, rfl, rfl⟩
      · rintro (⟨_, _, ⟨⟩⟩ | ⟨_, rfl, ⟨⟩⟩)
        rfl
    | exhausted => simp

end Run

/-- The answer to a line is the written value of the form that is read off it. -/
theorem Engine.rep_eq_ok_iff {e : Engine} {env : Env} {line out : String} {s s' : Store} :
    e.rep env line s = .ok out s' ↔ ∃ form rest s₁ v,
      read env.table line.toList s = .ok (form, rest) s₁ ∧ e.eval form env s₁ = .ok v s' ∧
        out = s'.print v := by
  constructor
  · intro h
    simp only [Engine.rep, Engine.transcribe, Run.bind_eq_ok_iff] at h
    obtain ⟨_, _, ⟨⟨form, rest⟩, s₁, reading, h⟩, hout⟩ := h
    obtain ⟨_, _, hform, v, s₂, evaluation, _, _, hvalue, h⟩ := h
    cases hform
    cases hvalue
    cases h
    cases hout
    exact ⟨form, rest, _, v, reading, evaluation, rfl⟩
  · rintro ⟨form, rest, s₁, v, reading, evaluation, rfl⟩
    have transcript : e.transcribe env line s =
        .ok ⟨String.ofList rest, s₁.print form, s'.print v⟩ s' := by
      simp only [Engine.transcribe]
      rw [Run.bind_apply_of_ok reading]
      simp only [Run.look_bind_apply]
      rw [Run.bind_apply_of_ok evaluation]
      rfl
    simp only [Engine.rep]
    rw [Run.bind_apply_of_ok transcript]
    rfl

/-- A line is not answered if it cannot be read, or if its form cannot be evaluated. -/
theorem Engine.rep_eq_error_iff {e : Engine} {env : Env} {line : String} {stop : Stop}
    {s s' : Store} : e.rep env line s = .error stop s' ↔
      read env.table line.toList s = .error stop s' ∨
      ∃ form rest s₁, read env.table line.toList s = .ok (form, rest) s₁ ∧
        e.eval form env s₁ = .error stop s' := by
  simp [Engine.rep, Engine.transcribe, Run.bind_eq_error_iff]

end PocketLisp
