import PocketLisp.Proofs.LineEnds
import PocketLisp.Proofs.SessionBindings

/-!
# Files and conversations

A file is answered as its lines are in a conversation, but for three things. The file skips lines
that hold nothing but white space in the wide sense, which a conversation may answer without any
change of the bindings. The file shows its line feed in the answer to a line that is refused for a
closing parenthesis. And a conversation, which has a history, ends at a line with a null character,
while the file goes on.
-/
namespace PocketLisp

/-- The answer to a refused line in as many quoted forms. -/
def refusalText : Nat → String → String
  | 0, message => "<error: " ++ message ++ ">"
  | k + 1, message => "(quote " ++ refusalText k message ++ ")"

/-- What a line comes to in a conversation, and what it comes to in a file. Where a closing
parenthesis follows its leading blanks and quotes, it is refused, and the message of the file ends
with the line feed. One of the quotes is gone in the answer. -/
inductive Echoes (line : String) : Except Fault String → Except Fault String → Prop where
  | same {outcome : Except Fault String}
      (readable : ∀ rest, line.toList.dropWhile isLead ≠ ')' :: rest) : Echoes line outcome outcome
  | refused {rest : List Char} {message : String}
      (unreadable : line.toList.dropWhile isLead = ')' :: rest)
      (reason : message = "invalid syntax: " ++ String.ofList (')' :: rest)) :
      Echoes line (.ok (refusalText (leadingQuotes line.toList - 1) message))
        (.ok (refusalText (leadingQuotes line.toList - 1) (message ++ "\n")))

theorem Echoes.both {line : String} {o o' : Except Fault String} (h : Echoes line o o') :
    (∃ out out', o = .ok out ∧ o' = .ok out') ∨ ∃ f, o = .error f ∧ o' = .error f := by
  cases h with
  | same =>
    cases o with
    | ok out => exact .inl ⟨out, out, rfl, rfl⟩
    | error f => exact .inr ⟨f, rfl, rfl⟩
  | refused => exact .inl ⟨_, _, rfl, rfl⟩

section refusals

variable {table global : Nat} {g : Globals} {line : String}
  {es : List (PureValue × PureValue)}

def refusal (k : Nat) (message : String) : PureValue :=
  (quotes k (.atom (.error message))).map Atom.toPure

theorem refusal_succ (k : Nat) (message : String) : refusal (k + 1) message =
    .cons (.atom (.sym "quote")) (.cons (refusal k message) PureValue.nil) := rfl

theorem render_refusal (k : Nat) (message : String) (rest : List Char) :
    (refusal k message).render pureSpelling rest = (refusalText k message).toList ++ rest := by
  induction k generalizing rest with
  | zero => simp [refusal, quotes, Sexp.map, Sexp.render, Atom.toPure, pureSpelling, refusalText]
  | succ k ih =>
    have written : (refusal (k + 1) message).render pureSpelling rest =
        "(quote ".toList ++ (refusal k message).render pureSpelling (')' :: rest) := rfl
    rw [written, ih, refusalText]
    simp

theorem written_refusal (k : Nat) (message : String) :
    (refusal k message).written pureSpelling = refusalText k message := by
  rw [Sexp.written, render_refusal, List.append_nil, String.ofList_toList]

/-- Evaluation takes a quote away, if there is one. -/
theorem realizes_refusal (k : Nat) (message : String) :
    Realizes table global (.eval (refusal k message) []) g (refusal (k - 1) message) g [] := by
  cases k with
  | zero => exact Realizes.atom (.self (by simp [Atom.toPure]))
  | succ k =>
    rw [refusal_succ]
    exact Realizes.quote rfl

theorem comes_of_unreadable {rest : List Char} (h : line.toList.dropWhile isLead = ')' :: rest) :
    Comes es line (.ok (refusalText (leadingQuotes line.toList - 1)
      ("invalid syntax: " ++ String.ofList (')' :: rest)))) es := by
  rw [← written_refusal]
  exact comes_of_realizes (readForm_unreadable [] h (Nat.le_succ _)) (realizes_refusal _ _)

theorem exists_evaluates_atom (a : PureAtom) (locals : Locals) (g : Globals) :
    ∃ x, Evaluates (.eval (.atom a) locals) g x g := by
  cases a with
  | sym name =>
    cases found : lookup locals g name with
    | some x => exact ⟨x, .bound found⟩
    | none => exact ⟨_, .unbound found⟩
  | _ => exact ⟨_, .self (by simp)⟩

/-- White space is answered, and it changes no binding. -/
theorem exists_comes_of_blank (h : isBlankText line = true) :
    ∃ out, Comes es line (.ok out) es := by
  have blank : ∀ c ∈ line.toList, isWideBlank c = true := List.all_eq_true.1 h
  obtain ⟨names, a, rest, short, form⟩ := @readForm_blank line.toList _ [] blank (Nat.le_succ _)
  obtain ⟨x, value⟩ := exists_evaluates_atom a.toPure [] (.listed es)
  exact ⟨_, comes_of_realizes form (Realizes.atom value)⟩

theorem Responds.exists_evaluates {outcome : Except Fault String} {g' : Globals}
    {names : List String} {d : Datum} {rest : List Char} {short : rest.length ≤ line.toList.length}
    (h : Responds g line outcome g')
    (form : readForm line.toList [] line.toList (Nat.le_succ _) = .form names d rest short) :
    ∃ x, Evaluates (.eval (d.map Atom.toPure) []) g x g' := by
  cases h with
  | answer form' value =>
    cases form.symm.trans form'
    exact ⟨_, value⟩
  | refusal form' => cases form.symm.trans form'

/-- A line of a conversation and the same line of a file come to be the same if one of them comes to
be anything. -/
theorem exists_echoes {outcome : Except Fault String}
    (h : Responds (.listed es) line outcome g ∨ Responds (.listed es) (line ++ "\n") outcome g) :
    ∃ o o' es', Comes es line o es' ∧ Comes es (line ++ "\n") o' es' ∧ Echoes line o o' := by
  by_cases unreadable : ∃ rest, line.toList.dropWhile isLead = ')' :: rest
  · obtain ⟨rest, unreadable⟩ := unreadable
    have comes := @comes_of_unreadable _ es _ (dropWhile_isLead_lineFeed unreadable)
    have message : "invalid syntax: " ++ String.ofList (')' :: (rest ++ ['\n'])) =
        "invalid syntax: " ++ String.ofList (')' :: rest) ++ "\n" := by
      rw [← String.toList_inj]
      simp
    rw [leadingQuotes_lineFeed, message] at comes
    exact ⟨_, _, es, comes_of_unreadable unreadable, comes, .refused unreadable rfl⟩
  · have readable := not_exists.1 unreadable
    have alike := readForm_lineFeed readable
    generalize hr : readForm line.toList [] line.toList (Nat.le_succ _) = r at alike
    generalize hr' : readForm (line ++ "\n").toList [] (line ++ "\n").toList (Nat.le_succ _) = r'
      at alike
    cases r with
    | form names d rest short =>
      cases r' with
      | form names' d' rest' short' =>
        obtain ⟨rfl, rfl, -⟩ := alike
        obtain ⟨x, value⟩ : ∃ x, Evaluates (.eval (d'.map Atom.toPure) []) (.listed es) x g :=
          h.elim (fun h => h.exists_evaluates hr) (fun h => h.exists_evaluates hr')
        obtain ⟨ds, realizes⟩ := value.realizes
        exact ⟨_, _, _, comes_of_realizes hr realizes, comes_of_realizes hr' realizes,
          .same readable⟩
      | overlong names' digits' => cases alike
    | overlong names digits =>
      cases r' with
      | form names' d' rest' short' => cases alike
      | overlong names' digits' =>
        obtain ⟨rfl, rfl⟩ := alike
        exact ⟨_, _, es, comes_of_overlong hr, comes_of_overlong hr', .same readable⟩

/-- A fault is that of an overlong numeral in the first form of the line. -/
theorem Responds.stops {f : Fault} {g' : Globals} (h : Responds g line (.error f) g') :
    ∃ ds token, Stops line.toList ds token ∧ f = .overlong (unsigned token).length := by
  cases h with
  | refusal form =>
    have follows := readForm_follows [] (Nat.le_succ line.toList.length)
    rw [form] at follows
    obtain ⟨ds, token, stops, digits, -⟩ := follows
    exact ⟨ds, token, stops, congrArg _ digits⟩

end refusals

def answeredLines (lines : List String) : List String :=
  (lines.filter fun line => !isBlankText line).map (· ++ "\n")

theorem answeredLines_blank {line : String} (h : isBlankText line = true) (lines : List String) :
    answeredLines (line :: lines) = answeredLines lines := by
  rw [answeredLines, List.filter_cons_of_neg (by simp [h]), answeredLines]

theorem answeredLines_text {line : String} (h : isBlankText line = false) (lines : List String) :
    answeredLines (line :: lines) = (line ++ "\n") :: answeredLines lines := by
  rw [answeredLines, List.filter_cons_of_pos (by simp [h]), List.map_cons, answeredLines]

/-- In a file, those of its lines are answered that are not skipped. -/
theorem Engine.load_fileText (e : Engine) (env : Env) {lines : List String}
    (h : ∀ line ∈ lines, Unbroken line) :
    e.load env (fileLines (fileText lines)) =
      answerLines (e.reply env) (answeredLines lines) := by
  rw [Engine.load, fileLines_fileText h, answeredLines, List.filter_map]
  congr 2
  refine List.filter_congr fun line _ => ?_
  rw [Function.comp_apply, isBlankText_append_lineFeed]

/-- `Parallel lines c c'`: the answers `c` to the lines and the run `c'` of the file go side by
side. -/
inductive Parallel : List String → Conversation → Conversation → Prop where
  | done : Parallel [] ⟨[], none⟩ ⟨[], none⟩
  | blank {line : String} {lines : List String} {r : Reply} {c c' : Conversation}
      (blank : isBlankText line = true) (others : Parallel lines c c') :
      Parallel (line :: lines) ⟨r :: c.replies, c.fault⟩ c'
  | answer {line : String} {lines : List String} {r r' : Reply} {c c' : Conversation}
      (text : isBlankText line = false) (echoes : Echoes line (.ok r.text) (.ok r'.text))
      (others : Parallel lines c c') :
      Parallel (line :: lines) ⟨r :: c.replies, c.fault⟩ ⟨r' :: c'.replies, c'.fault⟩
  | stop {line : String} {lines : List String} {f : Fault} (text : isBlankText line = false)
      (stops : ∃ ds token, Stops line.toList ds token ∧ f = .overlong (unsigned token).length) :
      Parallel (line :: lines) ⟨[], some f⟩ ⟨[], some f⟩

section session

variable {root : Env} {lines : List String} {s s' t t' : Store}
  {es : List (PureValue × PureValue)}

/-- The answers to lines and the run of the file go side by side in sessions with the same bindings,
and leave the same bindings. -/
theorem Ready.parallel {width depth width' depth' : Nat} {c c' : Conversation}
    (hs : Ready root es s) (ht : Ready root es t)
    (run : answerLines ((Engine.core width depth).reply root) lines s = .ok c s')
    (run' : answerLines ((Engine.core width' depth').reply root) (answeredLines lines) t =
      .ok c' t') :
    Parallel lines c c' ∧ ∃ es', Ready root es' s' ∧ Ready root es' t' := by
  induction lines generalizing s t es c c' with
  | nil =>
    obtain ⟨rfl, rfl⟩ := answerLines_nil_eq_ok_iff.1 run
    obtain ⟨rfl, rfl⟩ := answerLines_nil_eq_ok_iff.1 run'
    exact ⟨.done, es, hs, ht⟩
  | cons line lines ih =>
    obtain ⟨o, u, settles, rest⟩ := hs.answers_cons run
    by_cases blank : isBlankText line = true
    · rw [answeredLines_blank blank] at run'
      obtain ⟨out, comes⟩ := @exists_comes_of_blank line es blank
      obtain ⟨rfl, ready⟩ := hs.settled comes settles
      rcases rest with ⟨r, c₁, -, others, rfl⟩ | ⟨f, wrong, -⟩
      · obtain ⟨parallel, bindings⟩ := ih ready ht others run'
        exact ⟨.blank blank parallel, bindings⟩
      · cases wrong
    · rw [Bool.not_eq_true] at blank
      rw [answeredLines_text blank] at run'
      obtain ⟨o', u', settles', rest'⟩ := ht.answers_cons run'
      obtain ⟨g, responds⟩ := hs.responds settles
      obtain ⟨_, _, es₁, comes, comes', echoes⟩ := exists_echoes (.inl responds)
      obtain ⟨rfl, ready⟩ := hs.settled comes settles
      obtain ⟨rfl, ready'⟩ := ht.settled comes' settles'
      rcases echoes.both with ⟨out, out', rfl, rfl⟩ | ⟨f, rfl, rfl⟩
      · rcases rest with ⟨r, c₁, ⟨⟩, others, rfl⟩ | ⟨_, wrong, -⟩
        · rcases rest' with ⟨r', c₂, ⟨⟩, others', rfl⟩ | ⟨_, wrong, -⟩
          · obtain ⟨parallel, bindings⟩ := ih ready ready' others others'
            exact ⟨.answer blank echoes parallel, bindings⟩
          · cases wrong
        · cases wrong
      · rcases rest with ⟨_, _, wrong, -⟩ | ⟨_, ⟨⟩, rfl, rfl⟩
        · cases wrong
        · rcases rest' with ⟨_, _, wrong, -⟩ | ⟨_, ⟨⟩, rfl, rfl⟩
          · cases wrong
          · exact ⟨.stop blank responds.stops, es₁, ready, ready'⟩

/-- The answers to lines come to an end exactly if the run of the file does. -/
theorem Ready.ends_iff (hs : Ready root es s) (ht : Ready root es t) :
    Ends root lines s ↔ Ends root (answeredLines lines) t := by
  induction lines generalizing s t es with
  | nil => exact iff_of_true (ends_nil root s) (ends_nil root t)
  | cons line lines ih =>
    by_cases blank : isBlankText line = true
    · obtain ⟨out, comes⟩ := @exists_comes_of_blank line es blank
      obtain ⟨u, settles, ready⟩ := comes hs
      rw [answeredLines_blank blank, hs.ends_cons settles]
      exact ih ready ht
    · rw [Bool.not_eq_true] at blank
      rw [answeredLines_text blank]
      by_cases responds : ∃ o g, Responds (.listed es) line o g ∨
        Responds (.listed es) (line ++ "\n") o g
      · obtain ⟨_, _, responds⟩ := responds
        obtain ⟨o, o', es₁, comes, comes', echoes⟩ := exists_echoes responds
        obtain ⟨u, settles, ready⟩ := comes hs
        obtain ⟨u', settles', ready'⟩ := comes' ht
        rcases echoes.both with ⟨out, out', rfl, rfl⟩ | ⟨f, rfl, rfl⟩
        · rw [hs.ends_cons settles, ht.ends_cons settles']
          exact ih ready ready'
        · exact iff_of_true (hs.ends_of_fault settles) (ht.ends_of_fault settles')
      · refine iff_of_false (fun ends => responds ?_) (fun ends => responds ?_)
        · obtain ⟨o, g, h⟩ := hs.responds_of_ends ends
          exact ⟨o, g, .inl h⟩
        · obtain ⟨o, g, h⟩ := ht.responds_of_ends ends
          exact ⟨o, g, .inr h⟩

end session

theorem Reply.line_false (r : Reply) : r.line false = r.text ++ "\n" := by
  cases r <;> simp [Reply.line, Reply.text]

/-- A conversation over lines and the run of the file of the lines agree. -/
structure Agree (lines : List String) (c c' : Conversation) : Prop where
  fault : c'.fault = c.fault
  through : c.fault = none → c.replies.length = lines.length
  stopped : ∀ f, c.fault = some f → ∃ line, lines[c.replies.length]? = some line ∧
    isBlankText line = false ∧
    ∃ ds token, Stops line.toList ds token ∧ f = .overlong (unsigned token).length
  replies : c'.replies.length =
    ((lines.take c.replies.length).filter fun line => !isBlankText line).length
  last : ∀ before line after, lines = before ++ line :: after → isBlankText line = false →
    (∀ later ∈ after, isBlankText later = true) → c.fault = none →
    ∃ r text, c.replies[before.length]? = some r ∧ r.line false = text ++ "\n" ∧
      Echoes line (.ok text) (.ok c'.last)
  nothing : (∀ line ∈ lines, isBlankText line = true) → c'.last = "nil"

namespace Parallel
variable {lines : List String} {c c' : Conversation}

theorem fault_eq (h : Parallel lines c c') : c'.fault = c.fault := by
  induction h with
  | blank _ _ ih => exact ih
  | answer _ _ _ ih => exact ih
  | _ => rfl

theorem length_eq (h : Parallel lines c c') (ended : c.fault = none) :
    c.replies.length = lines.length := by
  induction h with
  | done => rfl
  | blank _ _ ih => rw [List.length_cons, List.length_cons, ih ended]
  | answer _ _ _ ih => rw [List.length_cons, List.length_cons, ih ended]
  | stop _ _ => cases ended

theorem stopped (h : Parallel lines c c') {f : Fault} (fault : c.fault = some f) :
    ∃ line, lines[c.replies.length]? = some line ∧ isBlankText line = false ∧
      ∃ ds token, Stops line.toList ds token ∧ f = .overlong (unsigned token).length := by
  induction h with
  | done => cases fault
  | blank _ _ ih =>
    obtain ⟨line, at_, rest⟩ := ih fault
    exact ⟨line, by rw [List.length_cons, List.getElem?_cons_succ, at_], rest⟩
  | answer _ _ _ ih =>
    obtain ⟨line, at_, rest⟩ := ih fault
    exact ⟨line, by rw [List.length_cons, List.getElem?_cons_succ, at_], rest⟩
  | stop text stops =>
    cases fault
    exact ⟨_, rfl, text, stops⟩

/-- The file has answered those of the lines so far that are not skipped. -/
theorem replies_length (h : Parallel lines c c') : c'.replies.length =
    ((lines.take c.replies.length).filter fun line => !isBlankText line).length := by
  induction h with
  | done => rfl
  | blank blank _ ih => simpa [blank] using ih
  | answer text _ _ ih => simpa [text] using ih
  | stop _ _ => rfl

theorem replies_eq_nil (h : Parallel lines c c') (blank : ∀ line ∈ lines, isBlankText line = true) :
    c'.replies = [] := by
  rw [← List.length_eq_zero_iff, h.replies_length, List.length_eq_zero_iff, List.filter_eq_nil_iff]
  intro line hline
  simp [blank line ((List.take_sublist _ _).subset hline)]

/-- The last answer of the file is that to the last line that is not skipped. -/
theorem last_reply {before after : List String} {line : String}
    (h : Parallel (before ++ line :: after) c c') (text : isBlankText line = false)
    (blank : ∀ later ∈ after, isBlankText later = true) (ended : c.fault = none) :
    ∃ r r', c.replies[before.length]? = some r ∧ c'.replies.getLast? = some r' ∧
      Echoes line (.ok r.text) (.ok r'.text) := by
  induction before generalizing c c' with
  | nil =>
    cases h with
    | blank wrong _ => cases text.symm.trans wrong
    | answer _ echoes others =>
      rw [others.replies_eq_nil blank]
      exact ⟨_, _, rfl, rfl, echoes⟩
    | stop _ _ => cases ended
  | cons first before ih =>
    cases h with
    | blank _ others =>
      obtain ⟨r, r', reply, last, echoes⟩ := ih others ended
      exact ⟨r, r', reply, last, echoes⟩
    | answer _ _ others =>
      obtain ⟨r, r', reply, last, echoes⟩ := ih others ended
      refine ⟨r, r', reply, ?_, echoes⟩
      rw [List.getLast?_cons, last, Option.getD_some]
    | stop _ _ => cases ended

theorem agree (h : Parallel lines c c') : Agree lines c c' where
  fault := h.fault_eq
  through := h.length_eq
  stopped _ := h.stopped
  replies := h.replies_length
  last before line after same text blank ended := by
    subst same
    obtain ⟨r, r', reply, last, echoes⟩ := h.last_reply text blank ended
    refine ⟨r, r.text, reply, r.line_false, ?_⟩
    rw [Conversation.last, last]
    exact echoes
  nothing blank := by
    rw [Conversation.last, h.replies_eq_nil blank]
    rfl

end Parallel

/-- After any calls of a fresh session, the run of a file and the conversation over its lines come
to an end together, under all large enough bounds. Then they agree, and they leave the same bindings
in the same order, whatever the bounds are. No line may hold a null character: at the first that
does, the conversation ends, if it comes to that line. -/
theorem file_agrees_with_conversation {root : Env} {vs : List Value} {s₀ s : Store}
    (fresh : Env.newSession Store.empty = .ok root s₀) (calls : Calls root s₀ vs s)
    {lines : List String} (unbroken : ∀ line ∈ lines, Unbroken line)
    (remembered : ∀ line ∈ lines, holdsNull line = false) :
    (∀ width depth c t, (Engine.core width depth).converse root lines s = .ok c t →
      ∃ n, ∀ width depth, n ≤ width → n ≤ depth → ∃ c' t',
        (Engine.core width depth).load root (fileLines (fileText lines)) s = .ok c' t') ∧
    (∀ width depth c' t',
      (Engine.core width depth).load root (fileLines (fileText lines)) s = .ok c' t' →
      ∃ n, ∀ width depth, n ≤ width → n ≤ depth → ∃ c t,
        (Engine.core width depth).converse root lines s = .ok c t) ∧
    (∀ width depth width' depth' c c' t t',
      (Engine.core width depth).converse root lines s = .ok c t →
      (Engine.core width' depth').load root (fileLines (fileText lines)) s = .ok c' t' →
      Agree lines c c' ∧
        ∃ es, (∀ ds, root.Lists t ds ↔ ds = es) ∧ ∀ ds, root.Lists t' ds ↔ ds = es) ∧
    ∀ width depth line later c t, holdsNull line = true →
      ((Engine.core width depth).converse root (lines ++ line :: later) s = .ok c t ↔
        ∃ c', (Engine.core width depth).converse root lines s = .ok c' t ∧
          c = ⟨c'.replies, some (c'.fault.getD .nullCharacter)⟩) := by
  obtain ⟨es, ready⟩ := calls.ready (.of_newSession fresh)
  simp only [Engine.load_fileText _ _ unbroken, Engine.converse_of_remembered remembered]
  refine ⟨fun width depth c t run => ?_, fun width depth c' t' run => ?_, ?_, ?_⟩
  · exact (ready.ends_iff ready).1 (ready.ends run)
  · exact (ready.ends_iff ready).2 (ready.ends run)
  · intro width depth width' depth' c c' t t' run run'
    obtain ⟨parallel, es', h, h'⟩ := ready.parallel ready run run'
    exact ⟨parallel.agree, es', fun _ => h.lists.iff, fun _ => h'.lists.iff⟩
  · exact fun width depth line later c t null => Engine.converse_null_eq_ok_iff remembered null

/-- A definition, a line that only the conversation answers, and a quoted parenthesis, after a line
that has been answered already. -/
theorem file_agrees_with_conversation_refusal : ∃ root s c t,
    (Engine.core 8 8).converse root ["(defun f (x) x)", "\x0c", "')"] s = .ok c t ∧
    c.replies.map Reply.text = ["f", "<error: \x0c has no value>", "<error: invalid syntax: )>"] ∧
    ∃ n, ∀ width depth, n ≤ width → n ≤ depth → ∃ c' t',
      (Engine.core width depth).load root
        (fileLines (fileText ["(defun f (x) x)", "\x0c", "')"])) s = .ok c' t' ∧
      c'.last = "<error: invalid syntax: )\n>" ∧
      ∃ es, (∀ ds, root.Lists t ds ↔ ds = es) ∧ ∀ ds, root.Lists t' ds ↔ ds = es := by
  have answers : (match (do
        let root ← Env.newSession
        let first ← ((Engine.core 8 8).rep root "(defun f (x) (f x))").attempt
        let c ← (Engine.core 8 8).converse root ["(defun f (x) x)", "\x0c", "')"]
        return (root, first, c) : Run (Env × Except Fault String × Conversation)) Store.empty with
      | .ok (_, _, c) _ => some (c.replies.map Reply.text, c.fault)
      | .error _ _ => none) =
      some (["f", "<error: \x0c has no value>", "<error: invalid syntax: )>"], none) := by
    decide +kernel
  split at answers
  · next root first c t run =>
    simp only [Option.some.injEq, Prod.mk.injEq] at answers
    obtain ⟨texts, ended⟩ := answers
    simp only [Run.bind_eq_ok_iff, Run.pure_apply] at run
    obtain ⟨_, s₀, fresh, _, s, answer, _, _, conversation, same⟩ := run
    cases same
    have unbroken : ∀ line ∈ ["(defun f (x) x)", "\x0c", "')"], Unbroken line := by
      decide
    obtain ⟨ends, -, agree, -⟩ :=
      file_agrees_with_conversation fresh (.next .none (.rep answer)) unbroken (by decide)
    obtain ⟨n, load⟩ := ends 8 8 c t conversation
    refine ⟨root, s, c, t, conversation, texts, n, fun width depth hw hd => ?_⟩
    obtain ⟨c', t', run'⟩ := load width depth hw hd
    obtain ⟨agree, bindings⟩ := agree 8 8 width depth c c' t t' conversation run'
    refine ⟨c', t', run', ?_, bindings⟩
    obtain ⟨r, text, -, -, echoes⟩ :=
      agree.last ["(defun f (x) x)", "\x0c"] "')" [] rfl (by decide) (List.forall_mem_nil _) ended
    generalize last : Except.ok c'.last = o at echoes
    cases echoes with
    | same readable => exact absurd rfl (readable [])
    | refused unreadable reason =>
      cases unreadable
      rw [Except.ok.inj last, reason]
      decide
  · cases answers

/-- The history takes no line with a null character: the conversation ends there without an answer,
where the file is answered to its end. -/
theorem conversation_ends_at_null_character : ∃ root s c c' t t',
    Env.newSession Store.empty = .ok root s ∧ Unbroken "a\x00b" ∧
    (Engine.core 8 8).converse root ["a\x00b"] s = .ok c t ∧
    (Engine.core 8 8).load root (fileLines (fileText ["a\x00b"])) s = .ok c' t' ∧
    c = ⟨[], some .nullCharacter⟩ ∧ c'.fault = none ∧
    c'.last = "<error: a\x00b has no value>" ∧ ¬ Agree ["a\x00b"] c c' := by
  have answers : (match (do
        let root ← Env.newSession
        (Engine.core 8 8).load root (fileLines (fileText ["a\x00b"])) : Run Conversation)
          Store.empty with
      | .ok c _ => some (c.fault, c.last)
      | .error _ _ => none) = some (none, "<error: a\x00b has no value>") := by
    decide +kernel
  split at answers
  · next c' t' run =>
    simp only [Option.some.injEq, Prod.mk.injEq] at answers
    obtain ⟨ended, last⟩ := answers
    obtain ⟨root, s, fresh, run⟩ := Run.bind_eq_ok_iff.1 run
    refine ⟨root, s, _, c', s, t', fresh, by decide, rfl, run, rfl, ended, last, fun agree => ?_⟩
    cases ended.symm.trans agree.fault
  · cases answers

end PocketLisp
