import PocketLisp.Proofs.LineValues

/-!
# Conversations and calls

Lines are answered one after the other up to the first fault. In a session the answers are those of
the lines, for no line of a session is a misuse. A conversation ends at a line with a null character
too, which its history does not take. Between two lines a session may be asked for an answer, for a
value, or to run a file; whatever the calls are, they come to moves of the session from a moment
between two lines to another one.
-/
namespace PocketLisp

namespace Engine
variable {e : Engine} {env : Env} {line : String} {lines : List String} {s s' : Store}

theorem evalText_eq_error_iff {stop : Stop} :
    e.evalText env line s = .error stop s' ↔ e.rep env line s = .error stop s' := by
  rw [rep_eq_error_iff]
  simp [evalText, readText, Run.bind_eq_error_iff]

/-- A call for the value of a line leaves the store as a call for its answer does. -/
theorem attempt_rep_of_evalText {outcome : Except Fault Value}
    (value : (e.evalText env line).attempt s = .ok outcome s') :
    ∃ outcome, (e.rep env line).attempt s = .ok outcome s' := by
  rcases Run.attempt_eq_ok_iff.1 value with ⟨v, rfl, evaluation⟩ | ⟨f, rfl, refusal⟩
  · have answer := rep_eq_ok_iff_evalText.2 ⟨v, evaluation, rfl⟩
    exact ⟨_, Run.attempt_eq_ok_iff.2 (.inl ⟨_, rfl, answer⟩)⟩
  · exact ⟨_, Run.attempt_eq_ok_iff.2 (.inr ⟨f, rfl, evalText_eq_error_iff.1 refusal⟩)⟩

theorem rep_eq_ok_iff_transcribe {out : String} :
    e.rep env line s = .ok out s' ↔ ∃ t, e.transcribe env line s = .ok t s' ∧ t.value = out := by
  simp [rep, Run.bind_eq_ok_iff, and_comm, -bind_pure_comp]

theorem rep_eq_error_iff_transcribe {stop : Stop} :
    e.rep env line s = .error stop s' ↔ e.transcribe env line s = .error stop s' := by
  simp [rep, Run.bind_eq_error_iff, -bind_pure_comp]

theorem reply_eq_ok_iff {r : Reply} : e.reply env line s = .ok r s' ↔
    (∃ t, e.transcribe env line s = .ok t s' ∧ r = .value t) ∨
      ∃ operand as, e.transcribe env line s = .error (.fault (.misuse operand as)) s' ∧
        r = .refusal (as.message operand) := by
  rw [reply, Run.bind_eq_ok_iff]
  constructor
  · rintro ⟨o, t, attempt, rest⟩
    rcases Run.attempt_eq_ok_iff.1 attempt with ⟨transcript, rfl, answer⟩ | ⟨f, rfl, refusal⟩
    · cases rest
      exact .inl ⟨transcript, answer, rfl⟩
    · cases f with
      | misuse operand as =>
        cases rest
        exact .inr ⟨operand, as, refusal, rfl⟩
      | _ => cases rest
  · rintro (⟨transcript, answer, rfl⟩ | ⟨operand, as, refusal, rfl⟩)
    · exact ⟨_, s', Run.attempt_eq_ok_iff.2 (.inl ⟨_, rfl, answer⟩), rfl⟩
    · exact ⟨_, s', Run.attempt_eq_ok_iff.2 (.inr ⟨_, rfl, refusal⟩), rfl⟩

theorem reply_eq_fault_iff {f : Fault} : e.reply env line s = .error (.fault f) s' ↔
    e.transcribe env line s = .error (.fault f) s' ∧ ∀ operand as, f ≠ .misuse operand as := by
  have noFault (g : Fault) (t : Store) :
      (e.transcribe env line).attempt s ≠ .error (.fault g) t := by
    unfold Run.attempt
    split <;> simp
  rw [reply, Run.bind_eq_error_iff, or_iff_right (noFault f s')]
  constructor
  · rintro ⟨o, t, attempt, rest⟩
    rcases Run.attempt_eq_ok_iff.1 attempt with ⟨transcript, rfl, answer⟩ | ⟨f, rfl, refusal⟩
    · cases rest
    · cases f with
      | misuse operand as => cases rest
      | _ =>
        cases rest
        exact ⟨refusal, by simp⟩
  · rintro ⟨refusal, other⟩
    refine ⟨_, s', Run.attempt_eq_ok_iff.2 (.inr ⟨f, rfl, refusal⟩), ?_⟩
    cases f with
    | misuse operand as => exact absurd rfl (other operand as)
    | _ => rfl

end Engine

section lines

variable {answer answer' : String → Run Reply} {line : String} {lines : List String}
  {c : Conversation} {s s' : Store}

theorem answerLines_nil_eq_ok_iff :
    answerLines answer [] s = .ok c s' ↔ c = ⟨[], none⟩ ∧ s' = s := by
  rw [answerLines, Run.pure_apply]
  constructor
  · rintro ⟨⟩
    exact ⟨rfl, rfl⟩
  · rintro ⟨rfl, rfl⟩
    rfl

/-- The next line is answered after an answer, and none is after a fault. -/
theorem answerLines_cons_eq_ok_iff :
    answerLines answer (line :: lines) s = .ok c s' ↔
      (∃ r t c', (answer line).attempt s = .ok (.ok r) t ∧
        answerLines answer lines t = .ok c' s' ∧ c = ⟨r :: c'.replies, c'.fault⟩) ∨
      ∃ f, (answer line).attempt s = .ok (.error f) s' ∧ c = ⟨[], some f⟩ := by
  rw [answerLines, Run.bind_eq_ok_iff]
  constructor
  · rintro ⟨o, t, attempt, rest⟩
    cases o with
    | ok r =>
      obtain ⟨c', t', others, same⟩ := Run.bind_eq_ok_iff.1 rest
      cases same
      exact .inl ⟨r, t, c', attempt, others, rfl⟩
    | error f =>
      cases rest
      exact .inr ⟨f, attempt, rfl⟩
  · rintro (⟨r, t, c', attempt, others, rfl⟩ | ⟨f, attempt, rfl⟩)
    · exact ⟨_, t, attempt, Run.bind_eq_ok_iff.2 ⟨c', s', others, rfl⟩⟩
    · exact ⟨_, s', attempt, rfl⟩

theorem answerLines_congr (h : ∀ line ∈ lines, answer line = answer' line) :
    answerLines answer lines = answerLines answer' lines := by
  induction lines with
  | nil => rfl
  | cons line lines ih =>
    obtain ⟨first, others⟩ := List.forall_mem_cons.1 h
    rw [answerLines, answerLines, first, ih others]

end lines

namespace Engine
variable {e : Engine} {env : Env} {line : String} {lines : List String} {s s' : Store}

theorem replyToInput_of_remembered (h : holdsNull line = false) :
    e.replyToInput env line = e.reply env line := by
  rw [replyToInput, remember, if_neg (by simp [h])]
  rfl

theorem replyToInput_of_null (h : holdsNull line = true) (s : Store) :
    (e.replyToInput env line).attempt s = .ok (.error .nullCharacter) s := by
  rw [replyToInput, remember, if_pos h]
  rfl

theorem converse_of_remembered (h : ∀ line ∈ lines, holdsNull line = false) :
    e.converse env lines = answerLines (e.reply env) lines :=
  answerLines_congr fun line hline => replyToInput_of_remembered (h line hline)

/-- A conversation ends at the first line with a null character, if it comes to that line. -/
theorem converse_null_eq_ok_iff {later : List String} {c : Conversation}
    (remembered : ∀ line ∈ lines, holdsNull line = false) (null : holdsNull line = true) :
    e.converse env (lines ++ line :: later) s = .ok c s' ↔
      ∃ c', answerLines (e.reply env) lines s = .ok c' s' ∧
        c = ⟨c'.replies, some (c'.fault.getD .nullCharacter)⟩ := by
  rw [converse]
  induction lines generalizing s c with
  | nil =>
    rw [List.nil_append, answerLines_cons_eq_ok_iff, replyToInput_of_null null]
    constructor
    · rintro (⟨r, t, c', ⟨⟩, -⟩ | ⟨f, ⟨⟩, rfl⟩)
      exact ⟨_, rfl, rfl⟩
    · rintro ⟨c', run, rfl⟩
      obtain ⟨rfl, rfl⟩ := answerLines_nil_eq_ok_iff.1 run
      exact .inr ⟨_, rfl, rfl⟩
  | cons first lines ih =>
    obtain ⟨rememberedFirst, others⟩ := List.forall_mem_cons.1 remembered
    rw [List.cons_append, answerLines_cons_eq_ok_iff, replyToInput_of_remembered rememberedFirst]
    simp only [ih others, answerLines_cons_eq_ok_iff]
    constructor
    · rintro (⟨r, t, c', attempt, ⟨c₁, run, rfl⟩, rfl⟩ | ⟨f, attempt, rfl⟩)
      · exact ⟨_, .inl ⟨r, t, c₁, attempt, run, rfl⟩, rfl⟩
      · exact ⟨_, .inr ⟨f, attempt, rfl⟩, rfl⟩
    · rintro ⟨c', ⟨r, t, c₁, attempt, run, rfl⟩ | ⟨f, attempt, rfl⟩, rfl⟩
      · exact .inl ⟨r, t, _, attempt, ⟨c₁, run, rfl⟩, rfl⟩
      · exact .inr ⟨f, attempt, rfl⟩

/-- The replies of a conversation are the answers to its first lines. -/
theorem answers_of_converse {c : Conversation} (run : e.converse env lines s = .ok c s') :
    ∃ before after c', lines = before ++ after ∧
      answerLines (e.reply env) before s = .ok c' s' ∧ c.replies = c'.replies := by
  cases first : lines.find? holdsNull with
  | none =>
    have remembered : ∀ line ∈ lines, holdsNull line = false := by
      simpa using List.find?_eq_none.1 first
    rw [converse_of_remembered remembered] at run
    exact ⟨lines, [], c, (List.append_nil lines).symm, run, rfl⟩
  | some line =>
    obtain ⟨null, before, after, rfl, remembered⟩ := List.find?_eq_some_iff_append.1 first
    obtain ⟨c', answers, rfl⟩ := (converse_null_eq_ok_iff (by simpa using remembered) null).1 run
    exact ⟨before, line :: after, c', rfl, answers, rfl⟩

end Engine

section session

variable {root : Env} {width depth : Nat} {line : String} {s s' : Store}

/-- In a session, the answer that guards against misuse is the answer. -/
theorem Reached.reply_iff (h : Reached root ⟨.idle, s⟩) {o : Except Fault String} :
    ((Engine.core width depth).rep root line).attempt s = .ok o s' ↔
      ∃ o', ((Engine.core width depth).reply root line).attempt s = .ok o' s' ∧
        o'.map Reply.text = o := by
  have noMisuse : ∀ {f : Fault} {t : Store},
      (Engine.core width depth).rep root line s = .error (.fault f) t →
      ∀ operand as, f ≠ .misuse operand as := by
    rintro _ t refusal operand as rfl
    obtain ⟨names, digits, -, wrong, -⟩ := read_eq_error (h.read_of_refusal refusal)
    cases wrong
  constructor
  · intro attempt
    rcases Run.attempt_eq_ok_iff.1 attempt with ⟨out, rfl, answer⟩ | ⟨f, rfl, refusal⟩
    · obtain ⟨r, guarded, rfl⟩ := Engine.reply_of_rep answer
      exact ⟨.ok r, Run.attempt_eq_ok_iff.2 (.inl ⟨r, rfl, guarded⟩), rfl⟩
    · have guarded := Engine.reply_eq_fault_iff.2
        ⟨Engine.rep_eq_error_iff_transcribe.1 refusal, noMisuse refusal⟩
      exact ⟨.error f, Run.attempt_eq_ok_iff.2 (.inr ⟨f, rfl, guarded⟩), rfl⟩
  · rintro ⟨o', attempt, rfl⟩
    rcases Run.attempt_eq_ok_iff.1 attempt with ⟨r, rfl, answer⟩ | ⟨f, rfl, refusal⟩
    · rcases Engine.reply_eq_ok_iff.1 answer with ⟨t, transcript, rfl⟩ | ⟨_, _, misuse, -⟩
      · have answer := Engine.rep_eq_ok_iff_transcribe.2 ⟨t, transcript, rfl⟩
        exact Run.attempt_eq_ok_iff.2 (.inl ⟨t.value, rfl, answer⟩)
      · exact absurd rfl (noMisuse (Engine.rep_eq_error_iff_transcribe.2 misuse) _ _)
    · have refusal := Engine.rep_eq_error_iff_transcribe.2 (Engine.reply_eq_fault_iff.1 refusal).1
      exact Run.attempt_eq_ok_iff.2 (.inr ⟨f, rfl, refusal⟩)

theorem Reached.later {m m' : Moment} {ds : List Defined} (h : Reached root m)
    (course : Course (Move root) m ds m') : Reached root m' := by
  obtain ⟨s₀, ds₀, fresh, earlier⟩ := h
  exact ⟨s₀, _, fresh, earlier.trans course⟩

theorem course_of_evalText {v : Value}
    (h : (Engine.core width depth).evalText root line s = .ok v s') :
    ∃ ds, Course (Move root) ⟨.idle, s⟩ ds ⟨.give v [], s'⟩ := by
  obtain ⟨form, rest, s₁, reading, evaluation⟩ := Engine.evalText_eq_ok_iff.1 h
  obtain ⟨ds, course⟩ := eval_iff_performs.1 ⟨width, depth, evaluation⟩
  exact ⟨_, (Course.single (.line reading)).trans (course.mono .step)⟩

/-- A line is a course of the session also where it faults. -/
theorem Reached.course_of_attempt (h : Reached root ⟨.idle, s⟩) {o : Except Fault String}
    (attempt : ((Engine.core width depth).rep root line).attempt s = .ok o s') :
    ∃ ds, Course (Move root) ⟨.idle, s⟩ ds ⟨.idle, s'⟩ := by
  rcases Run.attempt_eq_ok_iff.1 attempt with ⟨out, rfl, answer⟩ | ⟨f, rfl, refusal⟩
  · obtain ⟨-, -, -, -, ds, -, -, course⟩ := course_of_rep answer
    exact ⟨ds, course⟩
  · exact ⟨[], .single (.refused (h.read_of_refusal refusal))⟩

theorem Reached.course_of_lines {lines : List String} {c : Conversation}
    (h : Reached root ⟨.idle, s⟩)
    (run : answerLines ((Engine.core width depth).reply root) lines s = .ok c s') :
    ∃ ds, Course (Move root) ⟨.idle, s⟩ ds ⟨.idle, s'⟩ := by
  induction lines generalizing s c with
  | nil =>
    obtain ⟨-, rfl⟩ := answerLines_nil_eq_ok_iff.1 run
    exact ⟨[], .refl⟩
  | cons line lines ih =>
    rcases answerLines_cons_eq_ok_iff.1 run with
      ⟨r, t, c', attempt, others, -⟩ | ⟨f, attempt, -⟩
    · obtain ⟨ds, first⟩ := h.course_of_attempt (h.reply_iff.2 ⟨_, attempt, rfl⟩)
      obtain ⟨ds', rest⟩ := ih (h.later first) others
      exact ⟨_, first.trans rest⟩
    · exact h.course_of_attempt (h.reply_iff.2 ⟨_, attempt, rfl⟩)

end session

/-- `Call root s vs s'`: a call of the session, for the answer to a line, for the value of its first
form, or for the run of a file. The line or a line of the file may be refused. A call for a value
returns it. -/
inductive Call (root : Env) (s : Store) : List Value → Store → Prop where
  | rep {s' : Store} {width depth : Nat} {line : String} {outcome : Except Fault String}
      (answer : ((Engine.core width depth).rep root line).attempt s = .ok outcome s') :
      Call root s [] s'
  | eval {s' : Store} {width depth : Nat} {line : String} {outcome : Except Fault Value}
      (value : ((Engine.core width depth).evalText root line).attempt s = .ok outcome s') :
      Call root s outcome.toOption.toList s'
  | load {s' : Store} {width depth : Nat} {lines : List String} {c : Conversation}
      (run : (Engine.core width depth).load root lines s = .ok c s') : Call root s [] s'

/-- `Calls root s vs s'`: calls of the session one after the other, which return the values `vs`,
the latest first. -/
inductive Calls (root : Env) (s : Store) : List Value → Store → Prop where
  | none : Calls root s [] s
  | next {s₁ s' : Store} {vs ws : List Value} (earlier : Calls root s vs s₁)
      (last : Call root s₁ ws s') : Calls root s (ws ++ vs) s'

section calls

variable {root : Env} {vs : List Value} {s s' : Store}

/-- A call is a course of the session, on which the value that is returned comes up. -/
theorem Call.course (h : Call root s vs s') (reached : Reached root ⟨.idle, s⟩) :
    (∃ ds, Course (Move root) ⟨.idle, s⟩ ds ⟨.idle, s'⟩) ∧
      ∀ v ∈ vs, ∃ ds, Course (Move root) ⟨.idle, s⟩ ds ⟨.give v [], s'⟩ := by
  cases h with
  | rep answer => exact ⟨reached.course_of_attempt answer, List.forall_mem_nil _⟩
  | eval value =>
    rcases Run.attempt_eq_ok_iff.1 value with ⟨v, rfl, evaluation⟩ | ⟨f, rfl, refusal⟩
    · obtain ⟨ds, course⟩ := course_of_evalText evaluation
      refine ⟨⟨_, course.next .answered⟩, fun w hw => ?_⟩
      cases List.mem_singleton.1 hw
      exact ⟨ds, course⟩
    · have refused := reached.read_of_refusal (Engine.evalText_eq_error_iff.1 refusal)
      exact ⟨⟨[], .single (.refused refused)⟩, List.forall_mem_nil _⟩
  | load run => exact ⟨reached.course_of_lines run, List.forall_mem_nil _⟩

/-- Calls are a course of the session, on which all values that are returned come up. -/
theorem Calls.course (h : Calls root s vs s') (reached : Reached root ⟨.idle, s⟩) :
    (∃ ds, Course (Move root) ⟨.idle, s⟩ ds ⟨.idle, s'⟩) ∧
      ∀ v ∈ vs, ∃ t ds ds', Course (Move root) ⟨.idle, s⟩ ds ⟨.give v [], t⟩ ∧
        Course (Move root) ⟨.give v [], t⟩ ds' ⟨.idle, s'⟩ := by
  induction h with
  | none => exact ⟨⟨[], .refl⟩, List.forall_mem_nil _⟩
  | next _ last ih =>
    obtain ⟨⟨ds, earlier⟩, values⟩ := ih
    obtain ⟨⟨ds', course⟩, returned⟩ := last.course (reached.later earlier)
    refine ⟨⟨_, earlier.trans course⟩, List.forall_mem_append.2 ⟨fun v hv => ?_, fun v hv => ?_⟩⟩
    · obtain ⟨ds'', value⟩ := returned v hv
      exact ⟨_, _, _, earlier.trans value, .single .answered⟩
    · obtain ⟨t, ds₁, ds₂, value, rest⟩ := values v hv
      exact ⟨t, ds₁, _, value, rest.trans course⟩

end calls

end PocketLisp
