import PocketLisp.Proofs.Conversations
import PocketLisp.Proofs.LineOutcomes

/-!
# Sessions with the same bindings

What a session has defined is what its global frame lists. Sessions that list the same answer a line
alike and list the same after it, whatever else is in their stores. All bounds that are large enough
give that answer, and no bounds give another one.
-/
namespace PocketLisp

def Globals.listed (es : List (PureValue × PureValue)) : Globals :=
  .ofBindings (es.filterMap bindingOf)

/-- The global frame of the environment lists these bindings, the latest first. -/
def Env.Lists (env : Env) (s : Store) (es : List (PureValue × PureValue)) : Prop :=
  ∃ global, env.globalFrames = .cons global ∧ FrameLists env.table global s es

structure Ready (root : Env) (es : List (PureValue × PureValue)) (s : Store) : Prop where
  reached : Reached root ⟨.idle, s⟩
  lists : root.Lists s es

/-- All large enough bounds give this outcome of the line. -/
def Settles (root : Env) (line : String) (s : Store) (outcome : Except Fault String) (s' : Store) :
    Prop :=
  ∃ n, ∀ width depth, n ≤ width → n ≤ depth →
    ((Engine.core width depth).rep root line).attempt s = .ok outcome s'

/-- In all sessions that list the bindings `es` the line has this outcome, and then they list the
bindings `es'`. -/
def Comes (es : List (PureValue × PureValue)) (line : String) (outcome : Except Fault String)
    (es' : List (PureValue × PureValue)) : Prop :=
  ∀ {root : Env} {s : Store}, Ready root es s →
    ∃ s', Settles root line s outcome s' ∧ Ready root es' s'

/-- All large enough bounds let the answers to the lines come to an end, be it at a fault. -/
def Ends (root : Env) (lines : List String) (s : Store) : Prop :=
  ∃ n, ∀ width depth, n ≤ width → n ≤ depth →
    ∃ c s', answerLines ((Engine.core width depth).reply root) lines s = .ok c s'

theorem Env.Lists.iff {env : Env} {s : Store} {es ds : List (PureValue × PureValue)}
    (h : env.Lists s es) : env.Lists s ds ↔ ds = es := by
  obtain ⟨global, root, alist, cell, lists⟩ := h
  constructor
  · rintro ⟨global', root', alist', cell', lists'⟩
    cases root.symm.trans root'
    cases cell.symm.trans cell'
    exact lists'.unique lists
  · rintro rfl
    exact ⟨global, root, alist, cell, lists⟩

theorem ends_nil (root : Env) (s : Store) : Ends root [] s :=
  ⟨0, fun _ _ _ _ => ⟨_, s, answerLines_nil_eq_ok_iff.2 ⟨rfl, rfl⟩⟩⟩

section session

variable {root : Env} {line : String} {lines : List String} {outcome outcome' : Except Fault String}
  {s s' s'' : Store} {es es' : List (PureValue × PureValue)} {width depth : Nat}

theorem Reached.holds {m : Moment} (h : Reached root m) (s : Store) : Holds 0 0 s root [] := by
  obtain ⟨s₀, ds, fresh, -⟩ := h
  cases newSession_eq.symm.trans fresh
  exact ⟨rfl, rfl, .root⟩

/-- No bounds give another outcome than the large ones. -/
theorem Reached.settles (h : Reached root ⟨.idle, s⟩)
    (attempt : ((Engine.core width depth).rep root line).attempt s = .ok outcome s') :
    Settles root line s outcome s' := by
  rcases Run.attempt_eq_ok_iff.1 attempt with ⟨out, rfl, answer⟩ | ⟨f, rfl, refusal⟩
  · obtain ⟨form, rest, s₁, v, reading, evaluation, written⟩ := Engine.rep_eq_ok_iff.1 answer
    obtain ⟨n, value⟩ := (answers_of_run evaluation).runWithin
    refine ⟨n, fun width depth hw hd => Run.attempt_eq_ok_iff.2 (.inl ⟨out, rfl, ?_⟩)⟩
    have evaluation := value width depth n hw hd (Nat.le_refl n)
    exact Engine.rep_eq_ok_iff.2 ⟨form, rest, s₁, v, reading, evaluation, written⟩
  · have reading := h.read_of_refusal refusal
    refine ⟨0, fun width depth _ _ => Run.attempt_eq_ok_iff.2 (.inr ⟨f, rfl, ?_⟩)⟩
    exact Engine.rep_eq_error_iff.2 (.inl reading)

theorem Settles.unique (h : Settles root line s outcome s')
    (h' : Settles root line s outcome' s'') : outcome = outcome' ∧ s' = s'' := by
  obtain ⟨n, first⟩ := h
  obtain ⟨m, second⟩ := h'
  have first := first (n + m) (n + m) (by omega) (by omega)
  have second := second (n + m) (n + m) (by omega) (by omega)
  cases first.symm.trans second
  exact ⟨rfl, rfl⟩

theorem Settles.reached (h : Settles root line s outcome s') (before : Reached root ⟨.idle, s⟩) :
    Reached root ⟨.idle, s'⟩ := by
  obtain ⟨n, attempt⟩ := h
  obtain ⟨ds, course⟩ := before.course_of_attempt (attempt n n (Nat.le_refl n) (Nat.le_refl n))
  exact before.later course

namespace Ready

theorem frame (h : Ready root es s) : FrameLists 0 0 s es := by
  obtain ⟨global, hroot, lists⟩ := h.lists
  have holds := h.reached.holds s
  cases hroot.symm.trans holds.root
  rw [holds.own] at lists
  exact lists

theorem represents (h : Ready root es s) : Represents 0 0 s (.listed es) := by
  have holds := h.reached.holds s
  obtain ⟨global, situated⟩ := h.reached.situated
  cases (situated.environments root (.inl rfl)).root.symm.trans holds.root
  refine h.frame.represents (holds.own ▸ situated.table) fun k c closure => ?_
  exact (situated.environments c.env (.inr (.inl ⟨k, c, closure, rfl⟩))).root

theorem of_frame (reached : Reached root ⟨.idle, s⟩) (lists : FrameLists 0 0 s es) :
    Ready root es s := by
  have holds := reached.holds s
  exact ⟨reached, 0, holds.root, holds.own.symm ▸ lists⟩

end Ready

theorem comes_of_realizes {names : List String} {d : Datum} {rest : List Char}
    {short : rest.length ≤ line.toList.length} {x : PureValue} {g : Globals}
    {ds : List (PureValue × PureValue)}
    (form : readForm line.toList [] line.toList (Nat.le_succ _) = .form names d rest short)
    (h : Realizes 0 0 (.eval (d.map Atom.toPure) []) (.listed es) x g ds) :
    Comes es line (.ok (x.written pureSpelling)) (ds ++ es) := by
  intro root s ready
  have holds := ready.reached.holds
  obtain ⟨v, s₁, reading, represents, shows⟩ := ready.represents.read_of_form form
  obtain ⟨w, s', answers, result, -, enlists⟩ := h (.eval shows (holds s₁)) represents
  have adds := (read_spec ready.represents.hasTable reading).1
  obtain ⟨n, value⟩ := answers.runWithin
  rw [← (holds s₁).own] at reading
  have settles : Settles root line s (.ok (x.written pureSpelling)) s' := by
    refine ⟨n, fun width depth hw hd => Run.attempt_eq_ok_iff.2 (.inl ⟨_, rfl, ?_⟩)⟩
    have evaluation := value width depth n hw hd (Nat.le_refl n)
    exact Engine.rep_eq_ok_iff.2 ⟨v, rest, s₁, w, reading, evaluation, result.shows.print_eq.symm⟩
  refine ⟨s', settles, .of_frame (settles.reached ready.reached) ?_⟩
  exact enlists es (ready.frame.of_extends adds.toExtends)

theorem comes_of_overlong {names : List String} {digits : Nat}
    (form : readForm line.toList [] line.toList (Nat.le_succ _) = .overlong names digits) :
    Comes es line (.error (.overlong digits)) es := by
  intro root s ready
  have reading := @read_of_overlong root.table _ _ _ form s
  have settles : Settles root line s (.error (.overlong digits))
      (s.internAll root.table names.reverse) := by
    refine ⟨0, fun width depth _ _ => Run.attempt_eq_ok_iff.2 (.inr ⟨_, rfl, ?_⟩)⟩
    exact Engine.rep_eq_error_iff.2 (.inl reading)
  have adds := s.addsData_internAll root.table names.reverse
  exact ⟨_, settles, .of_frame (settles.reached ready.reached)
    (ready.frame.of_extends adds.toExtends)⟩

/-- What the reference semantics tells of a line comes to be in all sessions. -/
theorem Responds.comes {g : Globals} (h : Responds (.listed es) line outcome g) :
    ∃ es', Comes es line outcome es' := by
  cases h with
  | answer form value =>
    obtain ⟨ds, realizes⟩ := value.realizes
    exact ⟨_, comes_of_realizes form realizes⟩
  | refusal form => exact ⟨es, comes_of_overlong form⟩

namespace Ready

theorem responds (h : Ready root es s) (settles : Settles root line s outcome s') :
    ∃ g, Responds (.listed es) line outcome g := by
  obtain ⟨n, attempts⟩ := settles
  have attempt := attempts n n (Nat.le_refl n) (Nat.le_refl n)
  rcases Run.attempt_eq_ok_iff.1 attempt with ⟨out, rfl, answer⟩ | ⟨f, rfl, refusal⟩
  · obtain ⟨x, g, ⟨form, value⟩, rfl, -⟩ :=
      (reports_rep h.reached.holds).sound h.represents answer
    exact ⟨g, .answer form value⟩
  · obtain ⟨names, digits, form, wrong, -⟩ := read_eq_error (h.reached.read_of_refusal refusal)
    cases wrong
    exact ⟨_, .refusal form⟩

/-- A session settles a line as all sessions do. -/
theorem settled (h : Ready root es s) (comes : Comes es line outcome es')
    (settles : Settles root line s outcome' s') : outcome' = outcome ∧ Ready root es' s' := by
  obtain ⟨t, settles', ready⟩ := comes h
  obtain ⟨rfl, rfl⟩ := settles.unique settles'
  exact ⟨rfl, ready⟩

theorem after_line (h : Ready root es s) (settles : Settles root line s outcome s') :
    ∃ es', Ready root es' s' := by
  obtain ⟨g, responds⟩ := h.responds settles
  obtain ⟨es', comes⟩ := responds.comes
  exact ⟨es', (h.settled comes settles).2⟩

/-- In a session the answers to some lines start with what becomes of the first of them. -/
theorem answers_cons {c : Conversation} (h : Ready root es s)
    (run : answerLines ((Engine.core width depth).reply root) (line :: lines) s = .ok c s') :
    ∃ outcome t, Settles root line s outcome t ∧
      ((∃ r c', outcome = .ok r.text ∧
        answerLines ((Engine.core width depth).reply root) lines t = .ok c' s' ∧
        c = ⟨r :: c'.replies, c'.fault⟩) ∨
      ∃ f, outcome = .error f ∧ s' = t ∧ c = ⟨[], some f⟩) := by
  rcases answerLines_cons_eq_ok_iff.1 run with
    ⟨r, t, c', attempt, others, same⟩ | ⟨f, attempt, same⟩
  · have settles := h.reached.settles (h.reached.reply_iff.2 ⟨_, attempt, rfl⟩)
    exact ⟨_, t, settles, .inl ⟨r, c', rfl, others, same⟩⟩
  · have settles := h.reached.settles (h.reached.reply_iff.2 ⟨_, attempt, rfl⟩)
    exact ⟨_, s', settles, .inr ⟨f, rfl, rfl, same⟩⟩

theorem after_lines {c : Conversation} (h : Ready root es s)
    (run : answerLines ((Engine.core width depth).reply root) lines s = .ok c s') :
    ∃ es', Ready root es' s' := by
  induction lines generalizing s es c with
  | nil =>
    obtain ⟨-, rfl⟩ := answerLines_nil_eq_ok_iff.1 run
    exact ⟨es, h⟩
  | cons line lines ih =>
    obtain ⟨outcome, t, settles, rest⟩ := h.answers_cons run
    obtain ⟨es₁, ready⟩ := h.after_line settles
    rcases rest with ⟨r, c', -, others, -⟩ | ⟨f, -, rfl, -⟩
    · exact ih ready others
    · exact ⟨es₁, ready⟩

/-- After an answer the answers to some lines end if those to the rest of them do. -/
theorem ends_cons {out : String} (h : Ready root es s)
    (settles : Settles root line s (.ok out) s') :
    Ends root (line :: lines) s ↔ Ends root lines s' := by
  constructor
  · rintro ⟨n, runs⟩
    refine ⟨n, fun width depth hw hd => ?_⟩
    obtain ⟨c, t, run⟩ := runs width depth hw hd
    obtain ⟨outcome, t', settles', rest⟩ := h.answers_cons run
    obtain ⟨rfl, rfl⟩ := settles.unique settles'
    rcases rest with ⟨r, c', -, others, -⟩ | ⟨f, wrong, -⟩
    · exact ⟨c', t, others⟩
    · cases wrong
  · rintro ⟨n, runs⟩
    obtain ⟨m, attempts⟩ := settles
    refine ⟨n + m, fun width depth hw hd => ?_⟩
    obtain ⟨c, t, others⟩ := runs width depth (by omega) (by omega)
    obtain ⟨o, attempt, text⟩ :=
      h.reached.reply_iff.1 (attempts width depth (by omega) (by omega))
    cases o with
    | ok r =>
      exact ⟨_, t, answerLines_cons_eq_ok_iff.2 (.inl ⟨r, s', c, attempt, others, rfl⟩)⟩
    | error f => cases text

theorem ends_of_fault {f : Fault} (h : Ready root es s)
    (settles : Settles root line s (.error f) s') : Ends root (line :: lines) s := by
  obtain ⟨n, attempts⟩ := settles
  refine ⟨n, fun width depth hw hd => ?_⟩
  obtain ⟨o, attempt, text⟩ := h.reached.reply_iff.1 (attempts width depth hw hd)
  cases o with
  | ok r => cases text
  | error f =>
    exact ⟨_, s', answerLines_cons_eq_ok_iff.2 (.inr ⟨f, attempt, rfl⟩)⟩

/-- The first of some lines has an outcome if their answers come to an end. -/
theorem responds_of_ends (h : Ready root es s) (ends : Ends root (line :: lines) s) :
    ∃ outcome g, Responds (.listed es) line outcome g := by
  obtain ⟨n, runs⟩ := ends
  obtain ⟨c, s', run⟩ := runs n n (Nat.le_refl n) (Nat.le_refl n)
  obtain ⟨outcome, t, settles, -⟩ := h.answers_cons run
  exact ⟨outcome, h.responds settles⟩

/-- Where the answers to lines come to an end under some bounds, they do under all large ones. -/
theorem ends {c : Conversation} (h : Ready root es s)
    (run : answerLines ((Engine.core width depth).reply root) lines s = .ok c s') :
    Ends root lines s := by
  induction lines generalizing s es c with
  | nil => exact ends_nil root s
  | cons line lines ih =>
    obtain ⟨outcome, t, settles, rest⟩ := h.answers_cons run
    obtain ⟨es₁, ready⟩ := h.after_line settles
    rcases rest with ⟨r, c', rfl, others, -⟩ | ⟨f, rfl, -, -⟩
    · exact (h.ends_cons settles).2 (ih ready others)
    · exact h.ends_of_fault settles

end Ready

theorem Calls.ready {vs : List Value} (h : Calls root s vs s') (ready : Ready root es s) :
    ∃ es', Ready root es' s' := by
  induction h with
  | none => exact ⟨es, ready⟩
  | next _ last ih =>
    obtain ⟨es₁, ready⟩ := ih
    cases last with
    | rep answer => exact ready.after_line (ready.reached.settles answer)
    | eval value =>
      obtain ⟨outcome, answer⟩ := Engine.attempt_rep_of_evalText value
      exact ready.after_line (ready.reached.settles answer)
    | load run => exact ready.after_lines run

theorem Ready.of_newSession (fresh : Env.newSession Store.empty = .ok root s) :
    Ready root (coreBindings.map fun b => (.atom (.sym b.1), b.2)) s := by
  have reached : Reached root ⟨.idle, s⟩ := ⟨s, [], fresh, .refl⟩
  refine .of_frame reached ?_
  cases newSession_eq.symm.trans fresh
  refine ⟨.cons 8, rfl, ?_⟩
  refine @Lists.cons _ _ _ _ _ _ (.sym ⟨5, "t"⟩) _ _ _ _ (by decide) rfl (by decide) rfl
    (.sym rfl) (.sym rfl) ?_
  refine @Lists.cons _ _ _ _ _ _ (.sym ⟨4, "cons"⟩) _ _ _ _ (by decide) rfl (by decide) rfl
    (.sym rfl) (@Shows.subr _ _ _ _ .cons) ?_
  refine @Lists.cons _ _ _ _ _ _ (.sym ⟨3, "cdr"⟩) _ _ _ _ (by decide) rfl (by decide) rfl
    (.sym rfl) (@Shows.subr _ _ _ _ .cdr) ?_
  exact @Lists.cons _ _ _ _ _ _ (.sym ⟨2, "car"⟩) _ _ _ _ (by decide) rfl (by decide) rfl
    (.sym rfl) (@Shows.subr _ _ _ _ .car) .nil

end session

end PocketLisp
