import PocketLisp.Proofs.Conversations

/-!
# Lookup stability

What an environment finds for a key after a run is determined by what it found before and by the
definitions that the run carried out. The runs are those of the interpreter: evaluations in any
environment that there is, lines, and calls one after the other. Their definitions are the labels of
their steps, which are what `evalDefun` makes there. A run that does not end has moments too, and
the same holds between any two of them.
-/
namespace PocketLisp

section reached

variable {root : Env} {m m' : Moment} {ds : List Defined}

/-- An evaluation in an environment of the session determines its definitions. -/
theorem Situated.performs_iff {global width depth : Nat} {env : Env} {form v : Value} {s : Store}
    (h : Situated root global m) (known : m.Knows root env)
    (evaluation : (Engine.core width depth).eval form env m.store = .ok v s) :
    ∃ ds, (∀ ds', Performs (.eval form env) m.store ds' v s ↔ ds' = ds) ∧
      GrowsBy global ds m.store s := by
  obtain ⟨ds, performs⟩ := eval_iff_performs.1 ⟨width, depth, evaluation⟩
  have grow := h.performs known performs
  refine ⟨ds, fun ds' => ⟨fun performs' => ?_, ?_⟩, grow⟩
  · exact h.unique (h.performs known performs') grow
  · rintro rfl
    exact performs

/-- A course of the session determines its definitions, also if only its stores are known. -/
theorem Situated.course_iff {global : Nat} (h : Situated root global m)
    (course : Course (Move root) m ds m') (ds' : List Defined) :
    Course (Move root) m ds' m' ↔ ds' = ds := by
  constructor
  · exact fun course' => h.unique (h.course course').1 (h.course course).1
  · rintro rfl
    exact course

end reached

/-- Let an environment be known at some moment of a session: the global one, one that a closure has
captured, or that of a call that is going on. Then what it finds for a key is kept, but for the
definitions of the key. This holds up to every later moment, be it in the middle of an evaluation,
with the definitions on the way. It holds over every evaluation that the interpreter ends, over
every line that it answers, and over all calls one after the other, whose definitions are
determined. And the definitions on the way are at each step those that the evaluator makes. -/
theorem Reached.lookup_later {root env : Env} {m : Moment} (reached : Reached root m)
    (known : m.Knows root env) (key : Value) :
    (∀ ds m', Course (Move root) m ds m' → LookupKept env key ds m.store m'.store) ∧
    (∀ width depth form e v s', m.Knows root e →
      (Engine.core width depth).eval form e m.store = .ok v s' →
      ∃ ds, (∀ ds', Performs (.eval form e) m.store ds' v s' ↔ ds' = ds) ∧
        LookupKept env key ds m.store s') ∧
    (∀ width depth line out s', m.stage = .idle →
      (Engine.core width depth).rep root line m.store = .ok out s' →
      ∃ form rest s v ds, read root.table line.toList m.store = .ok (form, rest) s ∧
        (∀ ds', Performs (.eval form root) s ds' v s' ↔ ds' = ds) ∧
        LookupKept env key ds m.store s') ∧
    (∀ vs s', m.stage = .idle → Calls root m.store vs s' →
      ∃ ds, (∀ ds', Course (Move root) m ds' ⟨.idle, s'⟩ ↔ ds' = ds) ∧
        LookupKept env key ds m.store s') ∧
    ∀ m₁ ds m₂, Step m₁ ds m₂ → m₁.Executes ds m₂.store := by
  obtain ⟨global, situated⟩ := reached.situated
  have later : ∀ ds m', Course (Move root) m ds m' → LookupKept env key ds m.store m'.store :=
    fun ds m' course => situated.lookupKept known (situated.course course).1 key
  refine ⟨later, ?_, ?_, ?_, fun _ _ _ step => step.executes⟩
  · intro width depth form e v s' knownToo evaluation
    obtain ⟨ds, determined, grow⟩ := situated.performs_iff knownToo evaluation
    exact ⟨ds, determined, situated.lookupKept known grow key⟩
  · intro width depth line out s' between answer
    obtain ⟨stage, store⟩ := m
    cases between
    obtain ⟨form, rest, s, v, reading, evaluation, -⟩ := Engine.rep_eq_ok_iff.1 answer
    obtain ⟨grow, read⟩ := situated.move (.line reading)
    obtain ⟨ds, determined, grow'⟩ := read.performs_iff (.inl rfl) evaluation
    refine ⟨form, rest, s, v, ds, reading, determined, situated.lookupKept known ?_ key⟩
    have both := grow.trans grow' situated.global_lt
    rw [List.append_nil] at both
    exact both
  · intro vs s' between calls
    obtain ⟨stage, store⟩ := m
    cases between
    obtain ⟨⟨ds, course⟩, -⟩ := calls.course reached
    exact ⟨ds, situated.course_iff course, later ds _ course⟩

/-- A name that was not bound is bound after a line, so the line has defined it, and the name has
the closure of that definition. -/
theorem Reached.lookup_later_defun : ∃ root s out s' form rest t v ds, ∃ d : Defined,
    Reached root ⟨.idle, s⟩ ∧ (Engine.core 4 4).rep root "(defun f)" s = .ok out s' ∧
    read root.table "(defun f)".toList s = .ok (form, rest) t ∧
    Performs (.eval form root) t ds v s' ∧ d ∈ ds ∧ d.name = .sym ⟨7, "f"⟩ ∧
    root.get (.sym ⟨7, "f"⟩) s' = .ok (.expr d.place) s' ∧
    s'.closures[d.place]? = some d.closure := by
  have runs : (match (do
        let root ← Env.newSession
        let before ← root.find? (.sym ⟨7, "f"⟩)
        let _ ← (Engine.core 4 4).rep root "(defun f)"
        let after ← root.find? (.sym ⟨7, "f"⟩)
        return (before, after) : Run (Option Value × Option Value)) Store.empty with
      | .ok (before, after) _ => some (before.isSome, after.isSome)
      | .error _ _ => none) = some (false, true) := by
    decide +kernel
  split at runs
  · next before after s' run =>
    simp only [Run.bind_eq_ok_iff, Run.pure_apply] at run
    obtain ⟨root, s, fresh, _, _, ⟨⟩, out, _, answer, _, _, ⟨⟩, ⟨⟩⟩ := run
    simp only [Option.some.injEq, Prod.mk.injEq] at runs
    have reached : Reached root ⟨.idle, s⟩ := ⟨s, [], fresh, .refl⟩
    have unbound : s.findLocal? root.frames (.sym ⟨7, "f"⟩) = none := by
      cases newSession_eq.symm.trans fresh
      rfl
    obtain ⟨form, rest, t, v, ds, reading, determined, kept⟩ :=
      (reached.lookup_later (.inl rfl) (.sym ⟨7, "f"⟩)).2.2.1 4 4 "(defun f)" out s' rfl answer
    cases found : ds.find? (fun d => d.name = .sym ⟨7, "f"⟩) with
    | some d =>
      obtain ⟨value, closure⟩ := kept.defined unbound d found
      exact ⟨root, s, out, s', form, rest, t, v, ds, d, reached, answer, reading,
        (determined ds).2 rfl, List.mem_of_find?_eq_some found,
        by simpa using List.find?_some found, value, closure⟩
    | none =>
      obtain ⟨old, before, after, -⟩ := kept.same unbound found
      cases before
      rw [Env.find?_eq] at after
      injection after with same
      rw [same, runs.1] at runs
      cases runs.2
  · cases runs

end PocketLisp
