import PocketLisp.Proofs.Sessions
import PocketLisp.Proofs.StoreSimulation

/-!
# Sessions and the reference semantics

A session answers its lines as the reference semantics transcribes them. What the sharing of cells,
the lists that are reversed in place and the frame that definitions change come to cannot be seen in
the answers.
-/
namespace PocketLisp

def Engine.session (e : Engine) (lines : List String) : Run (List String) := do
  let env ← Env.newSession
  lines.mapM (e.rep env)

section lines

variable {table global : Nat} {env : Env} (henv : ∀ s, Holds table global s env [])
include henv

/-- Lines that are answered are transcribed by the reference semantics. -/
theorem Represents.transcribes {lines outs : List String} {width depth : Nat} {s s' : Store}
    {g : Globals} (h : Represents table global s g) (short : ∀ line ∈ lines, NoOverlong line.toList)
    (run : lines.mapM ((Engine.core width depth).rep env) s = .ok outs s') :
    ∃ g', Transcribes g lines outs g' ∧ Represents table global s' g' := by
  induction lines generalizing s g outs with
  | nil =>
    obtain ⟨rfl, rfl⟩ := Run.mapM_nil_eq_ok_iff.1 run
    exact ⟨g, .done, h⟩
  | cons line lines ih =>
    obtain ⟨out, s₂, outs, answer, runOthers, rfl⟩ := Run.mapM_cons_eq_ok_iff.1 run
    obtain ⟨form, rest, s₁, v, reading, evaluation, rfl⟩ := Engine.rep_eq_ok_iff.1 answer
    rw [(henv s).own] at reading
    obtain ⟨names, d, _, _, _, _, hform, hread, hg, shows⟩ := h.read (short line (by simp))
    cases hread.symm.trans reading
    obtain ⟨x, g₁, value, result, hg⟩ :=
      (answers_of_run evaluation).evaluates (.eval shows (henv s₁)) hg
    have result := result.shows
    obtain ⟨g₂, others, hg⟩ := ih hg (fun l hl => short l (List.mem_cons_of_mem _ hl)) runOthers
    rw [result.print_eq]
    exact ⟨g₂, .line hform value others, hg⟩

/-- A line that has been read is answered under all large enough bounds if its form has a value in
the reference semantics. -/
theorem Represents.answers_line {line : String} {rest : List Char} {form : Value}
    {x y : PureValue} {s s₁ : Store} {g g' : Globals} (hg : Represents table global s₁ g)
    (reading : PocketLisp.read table line.toList s = .ok (form, rest) s₁)
    (shows : Shows table global s₁ form (.value y)) (value : Evaluates (.eval y []) g x g') :
    ∃ n s', (∀ width depth, n ≤ width → n ≤ depth →
        (Engine.core width depth).rep env line s = .ok (x.written pureSpelling) s') ∧
      Represents table global s' g' := by
  obtain ⟨v, s', answers, result, hg⟩ := value.answers (.eval shows (henv s₁)) hg
  obtain ⟨n, evaluation⟩ := answers.runWithin
  refine ⟨n, s', fun width depth hw hd => ?_, hg⟩
  rw [← (henv s).own] at reading
  have value := evaluation width depth n hw hd (Nat.le_refl n)
  exact Engine.rep_eq_ok_iff.2 ⟨form, rest, s₁, v, reading, value, result.shows.print_eq.symm⟩

/-- Lines that the reference semantics transcribes are answered under all large enough bounds. -/
theorem Transcribes.answered {lines outs : List String} {s : Store} {g g' : Globals}
    (h : Transcribes g lines outs g') (short : ∀ line ∈ lines, NoOverlong line.toList)
    (hg : Represents table global s g) :
    ∃ n s', ∀ width depth, n ≤ width → n ≤ depth →
      lines.mapM ((Engine.core width depth).rep env) s = .ok outs s' := by
  induction h generalizing s with
  | done => exact ⟨0, s, fun _ _ _ _ => Run.mapM_nil_eq_ok_iff.2 ⟨rfl, rfl⟩⟩
  | @line g g₁ g₂ line lines outs names d rest short' x reading value others ih =>
    obtain ⟨_, _, _, _, form, s₁, hform, hread, hg, shows⟩ := hg.read (short line (by simp))
    cases reading.symm.trans hform
    obtain ⟨n, s₂, answer, hg⟩ := hg.answers_line henv hread shows value
    obtain ⟨m, s', run⟩ := ih (fun l hl => short l (List.mem_cons_of_mem _ hl)) hg
    refine ⟨n + m, s', fun width depth hw hd => ?_⟩
    exact Run.mapM_cons_eq_ok_iff.2 ⟨_, s₂, outs, answer width depth (by omega) (by omega),
      run width depth (by omega) (by omega), rfl⟩

end lines

theorem exists_newSession : ∃ root s, Env.newSession Store.empty = .ok root s ∧
    (∀ s, Holds 0 0 s root []) ∧ Represents 0 0 s (.ofBindings coreBindings) := by
  refine ⟨_, _, newSession_eq, fun s => ⟨rfl, rfl, .root⟩, by decide, fun k c hc => by simp at hc,
    .cons 8, coreBindings, rfl, ?_, rfl⟩
  refine @Shows.bind _ _ _ _ _ _ _ ⟨5, "t"⟩ _ _ (by decide) rfl (by decide) rfl rfl (.sym rfl) ?_
  refine @Shows.bind _ _ _ _ _ _ _ ⟨4, "cons"⟩ _ _ (by decide) rfl (by decide) rfl rfl
    (@Shows.subr _ _ _ _ .cons) ?_
  refine @Shows.bind _ _ _ _ _ _ _ ⟨3, "cdr"⟩ _ _ (by decide) rfl (by decide) rfl rfl
    (@Shows.subr _ _ _ _ .cdr) ?_
  exact @Shows.bind _ _ _ _ _ _ _ ⟨2, "car"⟩ _ _ (by decide) rfl (by decide) rfl rfl
    (@Shows.subr _ _ _ _ .car) .noBindings

/-- A session answers lines under all large enough bounds exactly if the reference semantics
transcribes them, with the same answers. No bounds give other answers, and the store at the end
represents the globals at the end. -/
theorem session_iff_transcribes {lines : List String}
    (short : ∀ line ∈ lines, NoOverlong line.toList) (outs : List String) :
    ((∃ n s, ∀ width depth, n ≤ width → n ≤ depth →
        (Engine.core width depth).session lines Store.empty = .ok outs s) ↔
      ∃ g, Transcribes (.ofBindings coreBindings) lines outs g) ∧
    ∀ width depth s, (Engine.core width depth).session lines Store.empty = .ok outs s →
      ∃ g, Transcribes (.ofBindings coreBindings) lines outs g ∧ Represents 0 0 s g := by
  obtain ⟨root, s₀, fresh, henv, hg⟩ := exists_newSession
  have session (e : Engine) : e.session lines Store.empty = lines.mapM (e.rep root) s₀ := by
    rw [Engine.session, Run.bind_apply_of_ok fresh]
  have sound : ∀ width depth s, (Engine.core width depth).session lines Store.empty = .ok outs s →
      ∃ g, Transcribes (.ofBindings coreBindings) lines outs g ∧ Represents 0 0 s g := by
    intro width depth s run
    rw [session] at run
    exact hg.transcribes henv short run
  refine ⟨⟨?_, ?_⟩, sound⟩
  · rintro ⟨n, s, run⟩
    obtain ⟨g, transcribes, -⟩ := sound n n s (run n n (Nat.le_refl n) (Nat.le_refl n))
    exact ⟨g, transcribes⟩
  · rintro ⟨g, transcribes⟩
    obtain ⟨n, s, run⟩ := transcribes.answered henv short hg
    refine ⟨n, s, ?_⟩
    intro width depth hw hd
    rw [session]
    exact run width depth hw hd

/-- A definition, and a call of the function that it defines. -/
theorem session_iff_transcribes_definition :
    (∀ line ∈ ["(defun f (x) (cons x x))", "(f 'a)"], NoOverlong line.toList) ∧
    ∃ g, Transcribes (.ofBindings coreBindings) ["(defun f (x) (cons x x))", "(f 'a)"]
      ["f", "(a . a)"] g := by
  have short : ∀ line ∈ ["(defun f (x) (cons x x))", "(f 'a)"], NoOverlong line.toList := by
    intro line hline
    have hlength : line.toList.length ≤ 24 := by
      revert hline line
      decide
    exact noOverlong_of_length_le (Nat.le_trans hlength (by decide))
  have answers : (match (Engine.core 8 8).session ["(defun f (x) (cons x x))", "(f 'a)"]
        Store.empty with
      | .ok outs _ => some outs
      | .error _ _ => none) = some ["f", "(a . a)"] := by decide +kernel
  refine ⟨short, ?_⟩
  split at answers
  · next outs s run =>
    cases answers
    obtain ⟨g, transcribes, -⟩ := (session_iff_transcribes short _).2 8 8 s run
    exact ⟨g, transcribes⟩
  · cases answers

end PocketLisp
