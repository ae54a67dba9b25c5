import PocketLisp.Proofs.TokenLayout

/-!
# What a text that holds no form is read to

A form that cannot be read is told by what is behind the quotes at the front of the text: nothing, a
closing parenthesis, or a list that is not derived by the grammar. The error stands for what is
quoted, with one message for all that may go wrong within a list. An error behind a quote in a list
never becomes an element: it has used the text up, and so the list finds no end.
-/
namespace PocketLisp

/-- A text that starts with neither a blank nor a quote has no form in front, and the message is how
it is refused. -/
inductive Unreadable : List Char → String → Prop where
  | nothing : Unreadable [] "empty input"
  | closing (rest : List Char) :
      Unreadable (')' :: rest) ("invalid syntax: " ++ String.ofList (')' :: rest))
  | unfinished {rest : List Char} (h : ∀ d after, ¬Reads TokenAtom ('(' :: rest) d after) :
      Unreadable ('(' :: rest) "unfinished parenthesis"

theorem Unreadable.unique {text : List Char} {message message' : String}
    (h : Unreadable text message) (h' : Unreadable text message') : message = message' := by
  cases h <;> cases h' <;> rfl

/-- An error that has been read is that of a list without an end. -/
def Reading.OnlyUnfinished {bound : List Char} : Reading bound → Prop
  | .form _ d _ _ => isErrorDatum d = true → d = .atom (.error "unfinished parenthesis")
  | .overlong _ _ => True

theorem isErrorDatum_ofList (ds : List Datum) : isErrorDatum (.ofList .nil ds) = false := by
  cases ds <;> rfl

theorem readToken_onlyUnfinished {bound text : List Char} (names : List String)
    (short : (text.dropWhile (fun c => !isDelimiter c)).length ≤ bound.length) :
    (readToken names text short).OnlyUnfinished := by
  unfold readToken
  cases hclass : classify (text.takeWhile (fun c => !isDelimiter c)) with
  | ok a =>
    cases a with
    | error message => exact absurd hclass classify_ne_error
    | _ => exact nofun
  | error digits => trivial

mutual

theorem readForm_onlyUnfinished {bound text rest : List Char} {c : Char} (names : List String)
    (h : skipBlanks text = c :: rest) (hc : c ≠ ')') (fits : text.length ≤ bound.length + 1) :
    (readForm bound names text fits).OnlyUnfinished := by
  have shorter := length_lt_of_skipBlanks_eq h
  obtain ⟨t, after, starts⟩ := exists_starts text
  cases starts with
  | nothing h' => cases h.symm.trans h'
  | closing h' =>
    cases h.symm.trans h'
    exact absurd rfl hc
  | opening h' =>
    cases h.symm.trans h'
    rw [readForm_open h]
    exact readItems_onlyUnfinished names [] _
  | quote h' =>
    rw [readForm_quote h']
    cases readForm bound names after _ with
    | form _ _ _ _ => exact nofun
    | overlong _ _ => trivial
  | word hc' h' _ _ =>
    obtain ⟨short, read⟩ := readForm_token names h' hc' fits
    rw [read]
    exact readToken_onlyUnfinished names short
termination_by 2 * text.length

theorem readItems_onlyUnfinished {bound text : List Char} (names : List String)
    (items : List Datum) (fits : text.length ≤ bound.length + 1) :
    (readItems bound names items text fits).OnlyUnfinished := by
  cases h : skipBlanks text with
  | nil =>
    rw [readItems_end h]
    exact fun _ => rfl
  | cons c rest =>
    have shorter := length_lt_of_skipBlanks_eq h
    by_cases close : c = ')'
    · subst close
      rw [readItems_close h]
      exact fun error => absurd error (by simp [isErrorDatum_ofList])
    · have same : skipBlanks (c :: rest) = c :: rest :=
        skipBlanks_append_cons (List.forall_mem_nil _) (not_isBlank_of_skipBlanks h)
      have first := readForm_onlyUnfinished names same close
        (Nat.le_refl _ : (c :: rest).length ≤ rest.length + 1)
      rw [readItems_item h close]
      generalize readForm rest names (c :: rest) _ = r at first ⊢
      cases r with
      | overlong _ _ => trivial
      | form names d rest' short =>
        simp only
        split
        · exact first
        · exact readItems_onlyUnfinished names (d :: items) _
termination_by 2 * text.length + 1

end

theorem errorFree_quotes {k : Nat} {d : Datum} : ErrorFree (quotes k d) ↔ ErrorFree d := by
  induction k with
  | zero => rfl
  | succ k ih => exact errorFree_quoted.trans ih

theorem resumes_dropWhile_isLead (text : List Char) : Resumes text (text.dropWhile isLead) := by
  refine ⟨text.takeWhile isLead, List.takeWhile_append_dropWhile.symm, .inl fun c hc => ?_⟩
  have lead : isLead c = true := List.mem_takeWhile_imp (List.mem_of_getLast? hc)
  simp only [isLead, Bool.or_eq_true, decide_eq_true_eq] at lead
  rcases lead with blank | rfl
  · exact isDelimiter_of_isBlank blank
  · rfl

/-- What a text without quotes in front is read to: its error if it is unreadable, and else a datum
without errors. -/
def Reading.Sorted {bound : List Char} (text : List Char) : Reading bound → Prop
  | .form _ d rest _ =>
    (∃ message, Unreadable text message ∧ d = .atom (.error message) ∧ rest = []) ∨
      ((∀ message, ¬Unreadable text message) ∧ ErrorFree d)
  | .overlong _ _ => False

theorem not_reads_of_readForm {bound text rest : List Char} {names names' : List String}
    {d : Datum} {fits : text.length ≤ bound.length + 1} {short : rest.length ≤ bound.length}
    (noOverlong : NoOverlong text)
    (h : readForm bound names text fits = .form names' d rest short) (error : ¬ErrorFree d)
    (e : Datum) (after : List Char) : ¬Reads TokenAtom text e after := by
  intro reads
  obtain ⟨_, _, run⟩ := (reads.classified noOverlong).run bound names text rfl fits
  cases run.symm.trans h
  exact error reads.errorFree

/-- A list without an end is an error with one message, and any other list has no error in it. -/
theorem readForm_list_sorted {bound rest : List Char} (names : List String)
    (noOverlong : NoOverlong ('(' :: rest)) (fits : ('(' :: rest).length ≤ bound.length + 1) :
    (readForm bound names ('(' :: rest) fits).Sorted ('(' :: rest) := by
  have skip : skipBlanks ('(' :: rest) = '(' :: rest := rfl
  have follows := readForm_follows names fits
  have unfinished := readForm_onlyUnfinished names skip (by decide) fits
  have items := readItems_follows names [] (Nat.le_of_succ_le fits)
  rw [← readForm_open skip fits] at items
  generalize h : readForm bound names ('(' :: rest) fits = r at follows unfinished items ⊢
  cases r with
  | overlong names' digits =>
    obtain ⟨ds, token, stops, -⟩ := follows
    exact absurd stops noOverlong.not_stops
  | form names' d rest' short =>
    rcases items with ⟨ds, rfl, items, -⟩ | ⟨error, rfl⟩
    · have reads : Reads TokenAtom ('(' :: rest) _ rest' :=
        (Reads.list (List.forall_mem_nil _) items).imp fun _ _ _ atom => atom.1
      refine .inr ⟨fun message unreadable => ?_, reads.errorFree⟩
      cases unreadable with
      | unfinished none => exact none _ _ reads
    · obtain rfl := unfinished error
      have none := not_reads_of_readForm noOverlong h fun errorFree => errorFree _ rfl
      exact .inl ⟨_, .unfinished none, rfl, rfl⟩

/-- Where neither a blank nor a quote is in front, a text is read to the error that tells why it
starts with no form, or to a datum without errors. -/
theorem readForm_sorted {bound text : List Char} (names : List String)
    (skip : skipBlanks text = text) (noQuote : ∀ rest, text ≠ '\'' :: rest)
    (noOverlong : NoOverlong text) (fits : text.length ≤ bound.length + 1) :
    (readForm bound names text fits).Sorted text := by
  obtain ⟨t, rest, starts⟩ := exists_starts text
  cases starts with
  | nothing h =>
    obtain rfl := skip.symm.trans h
    rw [readForm_end rfl]
    exact .inl ⟨_, .nothing, rfl, rfl⟩
  | closing h =>
    obtain rfl := skip.symm.trans h
    rw [readForm_close rfl]
    exact .inl ⟨_, .closing rest, rfl, rfl⟩
  | opening h =>
    obtain rfl := skip.symm.trans h
    exact readForm_list_sorted names noOverlong fits
  | quote h => exact absurd (skip.symm.trans h) (noQuote rest)
  | @word c after token rest hc h htake hdrop =>
    obtain rfl := skip.symm.trans h
    have readable : ∀ message, ¬Unreadable (c :: after) message := by
      intro message unreadable
      cases unreadable <;> cases hc
    have follows := readForm_follows names fits
    obtain ⟨short, read⟩ := readForm_token names h hc fits
    rw [read, readToken] at follows ⊢
    cases hclass : classify ((c :: after).takeWhile (fun c => !isDelimiter c)) with
    | ok a =>
      refine .inr ⟨readable, fun message e => ?_⟩
      rw [e] at hclass
      exact classify_ne_error hclass
    | error digits =>
      rw [hclass] at follows
      obtain ⟨ds, token, stops, -⟩ := follows
      exact absurd stops noOverlong.not_stops

/-- Reader failures are classified by what is behind the quotes at the front of the text: where that
is empty, starts with a closing parenthesis, or is a list that the grammar does not derive, the
result is the error of that kind behind as many quotes, and nothing is left of the text. In every
other case the result holds no error, so that an error is only found at the end of those quotes. -/
theorem read_failures {s : Store} {table : Nat} {text : List Char} (hT : table < s.tables.size)
    (noOverlong : NoOverlong text) : ∃ v rest s' d,
      read table text s = .ok (v, rest) s' ∧ Denotes s' table v d ∧
      (∀ message, Unreadable (text.dropWhile isLead) message →
        d = quotes (leadingQuotes text) (.atom (.error message)) ∧ rest = []) ∧
      ((∀ message, ¬Unreadable (text.dropWhile isLead) message) → ErrorFree d) ∧
      (¬ErrorFree d → ∃ message, Unreadable (text.dropWhile isLead) message ∧
        d = quotes (leadingQuotes text) (.atom (.error message)) ∧ rest = []) := by
  obtain ⟨names, d, rest, short, v, s', hform, hread, -, unfolds, -⟩ :=
    exists_read hT noOverlong
  refine ⟨v, rest, s', d, hread, unfolds.denotes, ?_⟩
  have fits : (text.dropWhile isLead).length ≤ text.length + 1 :=
    Nat.le_succ_of_le (List.dropWhile_sublist _).length_le
  have noQuote : ∀ rest, text.dropWhile isLead ≠ '\'' :: rest := by
    intro rest h
    have head := List.head?_dropWhile_not isLead text
    rw [h] at head
    cases head
  have sorted := readForm_sorted [] (skipBlanks_dropWhile_isLead text) noQuote
    (noOverlong.of_resumes (resumes_dropWhile_isLead text)) fits
  rw [readForm_lead [] text (Nat.le_succ _) fits] at hform
  generalize readForm text [] (text.dropWhile isLead) fits = r at sorted hform
  cases r with
  | overlong _ _ => cases sorted
  | form names' e rest' short' =>
    cases hform
    rcases sorted with ⟨message, unreadable, rfl, rfl⟩ | ⟨readable, errorFree⟩
    · refine ⟨fun message' unreadable' => ?_, fun readable => ?_, fun _ => ?_⟩
      · rw [unreadable.unique unreadable']
        exact ⟨rfl, rfl⟩
      · exact absurd unreadable (readable message)
      · exact ⟨message, unreadable, rfl, rfl⟩
    · have whole : ErrorFree (quotes (leadingQuotes text) e) := errorFree_quotes.2 errorFree
      exact ⟨fun message unreadable => absurd unreadable (readable message),
        fun _ => whole, fun error => absurd whole error⟩

/-- A quote in front of a closing parenthesis, in a list behind two quotes. -/
theorem read_failures_nested : 0 < Store.empty.newTable.2.tables.size ∧
    NoOverlong "' '(a ') b".toList ∧ ∃ v s',
      read 0 "' '(a ') b".toList Store.empty.newTable.2 = .ok (v, []) s' ∧
      Denotes s' 0 v (quotes 2 (.atom (.error "unfinished parenthesis"))) := by
  have noOverlong : NoOverlong "' '(a ') b".toList := noOverlong_of_length_le (by decide)
  have form : (match readForm "(a ') b".toList [] "(a ') b".toList (Nat.le_succ _) with
      | .form _ d _ _ => some d
      | .overlong _ _ => none) = some (.atom (.error "unfinished parenthesis")) := by
    decide +kernel
  have unreadable : Unreadable "(a ') b".toList "unfinished parenthesis" := by
    split at form
    · next reading =>
      cases form
      exact .unfinished (not_reads_of_readForm (noOverlong_of_length_le (by decide)) reading
        fun errorFree => errorFree _ rfl)
    · cases form
  obtain ⟨v, rest, s', d, hread, denotes, failed, -⟩ :=
    read_failures (by decide : 0 < Store.empty.newTable.2.tables.size) noOverlong
  obtain ⟨rfl, rfl⟩ := failed _ unreadable
  exact ⟨by decide, noOverlong, v, s', hread, denotes⟩

end PocketLisp
