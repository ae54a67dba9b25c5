import PocketLisp.Proofs.ReaderGrammar
import PocketLisp.Proofs.ReadData
import Mathlib.Data.List.TakeWhile

/-!
# The reader follows the grammar

A text without overlong numerals is read to a datum. Either it is free of errors, and the grammar
derives it with the same rest, or it holds an error and nothing is left of the text. A quote may
hide an error from the list around it, but then the list finds the text used up.
-/
namespace PocketLisp

theorem Sexp.all_ofList {α : Type} {p : α → Prop} {last : α} (hlast : p last)
    {ts : List (Sexp α)} (h : ∀ t ∈ ts, t.All p) : (Sexp.ofList last ts).All p := by
  induction ts with
  | nil => exact hlast
  | cons t ts ih =>
    exact ⟨h t (by simp), ih fun u hu => h u (List.mem_cons_of_mem t hu)⟩

def ErrorFree (d : Datum) : Prop := d.All fun a => ∀ message, a ≠ .error message

theorem isErrorDatum_atom (a : Atom) :
    isErrorDatum (.atom a) = false ↔ ∀ message, a ≠ .error message := by
  cases a <;> simp [isErrorDatum]

instance : DecidablePred fun a : Atom => ∀ message, a ≠ .error message :=
  fun a => decidable_of_iff _ (isErrorDatum_atom a)

instance (d : Datum) : Decidable (ErrorFree d) := Sexp.decidableAll _ d

section equations

variable {bound : List Char} {names : List String} {items : List Datum} {text rest : List Char}
  {c : Char}

theorem length_lt_of_skipBlanks_eq (h : skipBlanks text = c :: rest) :
    rest.length < text.length := by
  have := length_skipBlanks_le text
  rw [h, List.length_cons] at this
  exact this

theorem readForm_end (h : skipBlanks text = []) (fits : text.length ≤ bound.length + 1) :
    readForm bound names text fits = .failure names "empty input" := by
  rw [readForm]
  split
  · rfl
  · next h' => cases h.symm.trans h'

theorem readForm_close (h : skipBlanks text = ')' :: rest)
    (fits : text.length ≤ bound.length + 1) : readForm bound names text fits =
      .failure names ("invalid syntax: " ++ String.ofList (')' :: rest)) := by
  rw [readForm]
  split
  · next h' => cases h.symm.trans h'
  · next h' =>
    cases h.symm.trans h'
    rfl

theorem readForm_open (h : skipBlanks text = '(' :: rest) (fits : text.length ≤ bound.length + 1) :
    readForm bound names text fits = readItems bound names [] rest
      (Nat.le_trans (Nat.le_of_lt (length_lt_of_skipBlanks_eq h)) fits) := by
  rw [readForm]
  split
  · next h' => cases h.symm.trans h'
  · next h' =>
    cases h.symm.trans h'
    rfl

theorem readForm_quote (h : skipBlanks text = '\'' :: rest)
    (fits : text.length ≤ bound.length + 1) : readForm bound names text fits =
      match readForm bound names rest
        (Nat.le_trans (Nat.le_of_lt (length_lt_of_skipBlanks_eq h)) fits) with
      | .form names d rest short => .form ("quote" :: names) (quoted d) rest short
      | .overlong names digits => .overlong names digits := by
  rw [readForm]
  split
  · next h' => cases h.symm.trans h'
  · next h' =>
    cases h.symm.trans h'
    rfl

theorem readForm_token (names : List String) (h : skipBlanks text = c :: rest)
    (hc : isDelimiter c = false)
    (fits : text.length ≤ bound.length + 1) :
    ∃ short, readForm bound names text fits = readToken names (c :: rest) short := by
  have close : c ≠ ')' := fun e => by simp [e, isDelimiter] at hc
  have list : c ≠ '(' := fun e => by simp [e, isDelimiter] at hc
  have quote : c ≠ '\'' := fun e => by simp [e, isDelimiter] at hc
  have short : ((c :: rest).dropWhile (fun c => !isDelimiter c)).length ≤ bound.length := by
    have hlt := length_lt_of_skipBlanks_eq h
    have hdrop : (rest.dropWhile (fun c => !isDelimiter c)).length ≤ rest.length :=
      (List.dropWhile_sublist _).length_le
    simp only [List.dropWhile_cons, hc, Bool.not_false, if_true]
    omega
  refine ⟨short, ?_⟩
  rw [readForm]
  split
  · next h' => cases h.symm.trans h'
  · next h' =>
    cases h.symm.trans h'
    simp only [close, list, quote, dite_false]

theorem readItems_end (h : skipBlanks text = []) (fits : text.length ≤ bound.length + 1) :
    readItems bound names items text fits = .failure names "unfinished parenthesis" := by
  rw [readItems]
  split
  · rfl
  · next h' => cases h.symm.trans h'

theorem readItems_close (h : skipBlanks text = ')' :: rest)
    (fits : text.length ≤ bound.length + 1) :
    readItems bound names items text fits = .form names (.ofList .nil items.reverse) rest
      (Nat.le_of_lt_succ (Nat.lt_of_lt_of_le (length_lt_of_skipBlanks_eq h) fits)) := by
  rw [readItems]
  split
  · next h' => cases h.symm.trans h'
  · next h' =>
    cases h.symm.trans h'
    rfl

theorem readItems_item (h : skipBlanks text = c :: rest) (hc : c ≠ ')')
    (fits : text.length ≤ bound.length + 1) :
    readItems bound names items text fits =
      match readForm rest names (c :: rest) (Nat.le_refl _) with
      | .form names d rest' short' =>
        if isErrorDatum d then .form names d [] (Nat.zero_le _)
        else readItems bound names (d :: items) rest' (Nat.le_trans short'
          (Nat.le_trans (Nat.le_of_lt (length_lt_of_skipBlanks_eq h)) fits))
      | .overlong names digits => .overlong names digits := by
  rw [readItems]
  split
  · next h' => cases h.symm.trans h'
  · next h' =>
    cases h.symm.trans h'
    exact if_neg hc

end equations

private theorem ofList_eq_iff {token : List Char} {name : String} :
    String.ofList token = name ↔ token = name.toList := by
  constructor
  · rintro rfl
    rw [String.toList_ofList]
  · rintro rfl
    rw [String.ofList_toList]

theorem TokenAtom.unique {token : List Char} {a b : Atom} (ha : TokenAtom token a)
    (hb : TokenAtom token b) : a = b := by
  have noNumeral : isNumeral "nil".toList = false := by decide
  cases ha with
  | @num n numeral value =>
    cases hb with
    | @num m _ value' =>
      obtain ⟨i, _, _⟩ := n
      obtain ⟨j, _, _⟩ := m
      have : i = j := value.symm.trans value'
      subst this
      rfl
    | nil name =>
      rw [name, noNumeral] at numeral
      cases numeral
    | sym _ noNumber => exact absurd value (noNumber n numeral)
  | nil name =>
    cases hb with
    | num numeral _ =>
      rw [name, noNumeral] at numeral
      cases numeral
    | nil _ => rfl
    | sym name' _ => exact absurd name name'
  | sym name noNumber =>
    cases hb with
    | @num n numeral value => exact absurd value (noNumber n numeral)
    | nil name' => exact absurd name' name
    | sym _ _ => rfl

theorem exists_tokenAtom (token : List Char) : ∃ a, TokenAtom token a := by
  by_cases number : ∃ n : Fixnum, isNumeral token = true ∧ numeralValue token = n.val
  · obtain ⟨n, numeral, value⟩ := number
    exact ⟨.num n, .num numeral value⟩
  · by_cases hnil : token = "nil".toList
    · exact ⟨.nil, .nil hnil⟩
    · exact ⟨_, .sym hnil fun n numeral value => number ⟨n, numeral, value⟩⟩

theorem tokenAtom_named {token : List Char} {a : Atom} (h : TokenAtom token a)
    (noNumber : ∀ n, a ≠ .num n) : a = .named (String.ofList token) := by
  cases h with
  | @num n _ _ => exact absurd rfl (noNumber n)
  | nil name => rw [Atom.named, if_pos (ofList_eq_iff.2 name)]
  | sym name _ => rw [Atom.named, if_neg fun h => name (ofList_eq_iff.1 h)]

theorem classify_eq_ok {token : List Char} {a : Atom} (h : TokenAtom token a)
    (short : isNumeral token = true → (unsigned token).length ≤ digitLimit) :
    classify token = .ok a := by
  by_cases numeral : isNumeral token = true
  · have limit : ¬digitLimit < (unsigned token).length := Nat.not_lt.2 (short numeral)
    simp only [classify, numeral, limit, if_true, if_false]
    cases hint : Fixnum.ofInt? (numeralValue token) with
    | some n => rw [h.unique (.num numeral (Fixnum.ofInt?_eq_some_iff.1 hint))]
    | none =>
      refine congrArg _ (tokenAtom_named h ?_).symm
      rintro n rfl
      cases h with
      | num _ value =>
        rw [Fixnum.ofInt?_eq_some_iff.2 value] at hint
        cases hint
  · rw [classify, if_neg numeral]
    refine congrArg _ (tokenAtom_named h ?_).symm
    rintro n rfl
    cases h with
    | num numeral' _ => exact numeral numeral'

def Classified (token : List Char) (a : Atom) : Prop := classify token = .ok a

theorem classify_eq_error_iff {token : List Char} {digits : Nat} :
    classify token = .error digits ↔ Overlong token ∧ digits = (unsigned token).length := by
  unfold classify Overlong
  split
  · next numeral =>
    split
    · next long => simp [numeral, long, eq_comm]
    · next short => split <;> simp [short]
  · next noNumeral => simp [noNumeral]

theorem classified_iff {token : List Char} {a : Atom} : Classified token a ↔ Converts token a := by
  constructor
  · intro h
    have short : ¬Overlong token := by
      intro overlong
      cases h.symm.trans (classify_eq_error_iff.2 ⟨overlong, rfl⟩)
    obtain ⟨b, hb⟩ := exists_tokenAtom token
    have same := classify_eq_ok hb fun numeral => Nat.not_lt.1 fun long => short ⟨numeral, long⟩
    cases same.symm.trans h
    exact ⟨hb, short⟩
  · rintro ⟨atom, short⟩
    exact classify_eq_ok atom fun numeral => Nat.not_lt.1 fun long => short ⟨numeral, long⟩

theorem classify_ne_error {token : List Char} {message : String} :
    classify token ≠ .ok (.error message) := by
  have named : Atom.named (String.ofList token) ≠ .error message := by
    unfold Atom.named
    split <;> simp
  unfold classify
  split
  · split
    · simp
    · split
      · simp
      · simpa using named
  · simpa using named

theorem exists_blanks_of_skipBlanks {text rest : List Char} (h : skipBlanks text = rest) :
    ∃ blanks, text = blanks ++ rest ∧ ∀ c ∈ blanks, isBlank c = true := by
  refine ⟨text.takeWhile isBlank, ?_, fun c hc => List.mem_takeWhile_imp hc⟩
  rw [← h, skipBlanks, List.takeWhile_append_dropWhile]

theorem not_isBlank_of_skipBlanks {text rest : List Char} {c : Char}
    (h : skipBlanks text = c :: rest) : isBlank c = false := by
  have := List.head?_dropWhile_not isBlank text
  rw [show text.dropWhile isBlank = c :: rest from h] at this
  simpa using this

theorem exists_token {c : Char} (rest : List Char) (hc : isDelimiter c = false) :
    ∃ token after, (c :: rest).takeWhile (fun c => !isDelimiter c) = token ∧
      (c :: rest).dropWhile (fun c => !isDelimiter c) = after ∧ c :: rest = token ++ after ∧
      token ≠ [] ∧ (∀ c ∈ token, isDelimiter c = false) ∧ EndsToken after := by
  refine ⟨_, _, rfl, rfl, List.takeWhile_append_dropWhile.symm, ?_, fun d hd => ?_, fun d hd => ?_⟩
  · simp [hc]
  · simpa using List.mem_takeWhile_imp hd
  · have := List.head?_dropWhile_not (fun c => !isDelimiter c) (c :: rest)
    rw [Option.mem_def.1 hd] at this
    simpa using this

theorem readToken_eq {bound text token rest : List Char} {a : Atom} (names : List String)
    (short : (text.dropWhile (fun c => !isDelimiter c)).length ≤ bound.length)
    (htake : text.takeWhile (fun c => !isDelimiter c) = token)
    (hdrop : text.dropWhile (fun c => !isDelimiter c) = rest) (hclass : classify token = .ok a) :
    ∃ short', readToken names text short = .form (a.names ++ names) (.atom a) rest short' := by
  subst hdrop
  refine ⟨short, ?_⟩
  rw [readToken, htake, hclass]

theorem quoted_all {p : Atom → Prop} {d : Datum} (hquote : p (.sym "quote")) (hnil : p .nil) :
    (quoted d).All p ↔ d.All p :=
  ⟨fun h => h.2.1, fun h => ⟨hquote, h, hnil⟩⟩

theorem errorFree_quoted {d : Datum} : ErrorFree (quoted d) ↔ ErrorFree d :=
  quoted_all (by simp) (by simp)

/-- An error, or one behind quotes. -/
inductive Wrapped : Datum → Prop where
  | error (message : String) : Wrapped (.atom (.error message))
  | quote {d : Datum} (inner : Wrapped d) : Wrapped (quoted d)

theorem Wrapped.named {d : Datum} (h : Wrapped d) : Named d := by
  induction h with
  | error _ => exact fun e => by cases e
  | quote _ ih => exact (quoted_all (by decide) (by simp)).2 ih

theorem Wrapped.not_errorFree {d : Datum} (h : Wrapped d) : ¬ErrorFree d := by
  induction h with
  | error message => exact fun errorFree => errorFree message rfl
  | quote _ ih => exact fun errorFree => ih (errorFree_quoted.1 errorFree)

theorem Wrapped.of_isErrorDatum {d : Datum} (h : isErrorDatum d = true) : Wrapped d := by
  cases d with
  | atom a =>
    cases a with
    | error message => exact .error message
    | _ => cases h
  | cons _ _ => cases h

def mentioned : Datum → List String
  | .atom a => a.names
  | .cons a d => mentioned a ++ mentioned d

theorem mem_mentioned_ofList {name : String} {ds : List Datum} :
    name ∈ mentioned (.ofList .nil ds) ↔ ∃ d ∈ ds, name ∈ mentioned d := by
  induction ds with
  | nil => simp [Sexp.ofList, mentioned, Atom.names]
  | cons d ds ih =>
    have h : mentioned (.ofList .nil (d :: ds)) = mentioned d ++ mentioned (.ofList .nil ds) := rfl
    rw [h, List.mem_append, ih, List.exists_mem_cons_iff]

/-- The names that have been entered are those before and those that the data mention. -/
def Enters (names names' : List String) (ds : List Datum) : Prop :=
  ∀ name, name ∈ names' ↔ name ∈ names ∨ ∃ d ∈ ds, name ∈ mentioned d

namespace Enters
variable {names names' names'' : List String} {d : Datum} {ds ds' : List Datum}

theorem refl (names : List String) : Enters names names [] := by simp [Enters]

theorem trans (h : Enters names names' ds) (h' : Enters names' names'' ds') :
    Enters names names'' (ds ++ ds') := by
  intro name
  simp only [h' name, h name, List.mem_append, or_and_right, exists_or, or_assoc]

theorem atom (names : List String) (a : Atom) : Enters names (a.names ++ names) [.atom a] := by
  intro name
  simp only [List.mem_append, List.mem_singleton, exists_eq_left, mentioned, or_comm]

theorem list (h : Enters names names' ds) : Enters names names' [.ofList .nil ds] := by
  intro name
  simp only [h name, List.mem_singleton, exists_eq_left, mem_mentioned_ofList]

theorem quoted (h : Enters names names' [d]) :
    Enters names ("quote" :: names') [PocketLisp.quoted d] := by
  intro name
  have mentions : mentioned (PocketLisp.quoted d) = "quote" :: (mentioned d ++ ([] ++ [])) := rfl
  simp only [List.mem_cons, h name, List.not_mem_nil, or_false, exists_eq_left, mentions,
    List.append_nil]
  tauto

end Enters

/-- The reading of a form: as the grammar has it, or an error that uses the text up, or up to an
overlong numeral. -/
def Reading.Follows {bound : List Char} (names : List String) (text : List Char) :
    Reading bound → Prop
  | .form names' d rest _ =>
    (Reads Converts text d rest ∧ Enters names names' [d]) ∨ (Wrapped d ∧ rest = [])
  | .overlong names' digits => ∃ ds token, Stops text ds token ∧
    digits = (unsigned token).length ∧ Enters names names' ds

def Reading.FollowsItems {bound : List Char} (names : List String) (items : List Datum)
    (text : List Char) : Reading bound → Prop
  | .form names' d rest _ =>
    (∃ ds, d = .ofList .nil (items.reverse ++ ds) ∧ ReadsItems Converts text ds rest ∧
      Enters names names' ds) ∨ (isErrorDatum d = true ∧ rest = [])
  | .overlong names' digits => ∃ ds token, ItemsStop text ds token ∧
    digits = (unsigned token).length ∧ Enters names names' ds

theorem Reads.not_isErrorDatum {text rest : List Char} {d : Datum}
    (h : Reads Converts text d rest) : isErrorDatum d = false := by
  cases h with
  | atom _ _ _ _ atom => cases atom.1 <;> rfl
  | @list _ _ _ ds _ _ => cases ds <;> rfl
  | quote _ _ => rfl

mutual

/-- A form is read as the grammar has it, or to an error that uses the text up, or up to an overlong
numeral. -/
theorem readForm_follows {bound : List Char} (names : List String) {text : List Char}
    (fits : text.length ≤ bound.length + 1) :
    (readForm bound names text fits).Follows names text := by
  cases h : skipBlanks text with
  | nil =>
    rw [readForm_end h]
    exact .inr ⟨.error _, rfl⟩
  | cons c rest =>
    have hlt := length_lt_of_skipBlanks_eq h
    obtain ⟨blanks, rfl, blank⟩ := exists_blanks_of_skipBlanks h
    by_cases close : c = ')'
    · subst close
      rw [readForm_close h]
      exact .inr ⟨.error _, rfl⟩
    by_cases list : c = '('
    · subst list
      have items := readItems_follows names []
        (Nat.le_trans (Nat.le_of_lt hlt) fits : rest.length ≤ bound.length + 1)
      rw [readForm_open h fits]
      revert items
      cases readItems bound names [] rest _ with
      | form names' d rest' short =>
        rintro (⟨ds, rfl, reads, enters⟩ | ⟨error, rfl⟩)
        · exact .inl ⟨.list blank reads, enters.list⟩
        · exact .inr ⟨.of_isErrorDatum error, rfl⟩
      | overlong names' digits =>
        rintro ⟨ds, token, stops, hdigits, enters⟩
        exact ⟨ds, token, .list blank stops, hdigits, enters⟩
    by_cases quote : c = '\''
    · subst quote
      have form := readForm_follows names
        (Nat.le_trans (Nat.le_of_lt hlt) fits : rest.length ≤ bound.length + 1)
      rw [readForm_quote h fits]
      revert form
      cases readForm bound names rest _ with
      | form names' d rest' short =>
        rintro (⟨reads, enters⟩ | ⟨wrapped, rfl⟩)
        · exact .inl ⟨.quote blank reads, enters.quoted⟩
        · exact .inr ⟨.quote wrapped, rfl⟩
      | overlong names' digits =>
        rintro ⟨ds, token, stops, hdigits, enters⟩
        exact ⟨ds, token, .quote blank stops, hdigits, enters⟩
    · have hc : isDelimiter c = false := by
        simp [isDelimiter, close, list, quote, not_isBlank_of_skipBlanks h]
      obtain ⟨short, hread⟩ := readForm_token names h hc fits
      obtain ⟨token, after, htoken, hafter, hsplit, nonempty, run, ends⟩ := exists_token rest hc
      have htext : blanks ++ c :: rest = blanks ++ (token ++ after) := by rw [hsplit]
      rw [hread, readToken, htoken]
      cases hclass : classify token with
      | ok a =>
        refine .inl ⟨?_, .atom names a⟩
        rw [htext, hafter]
        exact .atom blank nonempty run ends (classified_iff.1 hclass)
      | error digits =>
        obtain ⟨overlong, hdigits⟩ := classify_eq_error_iff.1 hclass
        exact ⟨[], token, htext ▸ .token blank run ends overlong, hdigits, .refl names⟩
termination_by 2 * text.length

theorem readItems_follows {bound : List Char} (names : List String) (items : List Datum)
    {text : List Char} (fits : text.length ≤ bound.length + 1) :
    (readItems bound names items text fits).FollowsItems names items text := by
  cases h : skipBlanks text with
  | nil =>
    rw [readItems_end h]
    exact .inr ⟨rfl, rfl⟩
  | cons c rest =>
    have hlt := length_lt_of_skipBlanks_eq h
    obtain ⟨blanks, htext, blank⟩ := exists_blanks_of_skipBlanks h
    by_cases close : c = ')'
    · subst close
      rw [readItems_close h]
      exact .inl ⟨[], by simp, htext ▸ .close blank, .refl names⟩
    · have form := readForm_follows names (Nat.le_refl _ : (c :: rest).length ≤ rest.length + 1)
      rw [readItems_item h close fits]
      revert form
      cases readForm rest names (c :: rest) _ with
      | overlong names' digits =>
        rintro ⟨ds, token, stops, hdigits, enters⟩
        exact ⟨ds, token, htext ▸ .here (stops.blanks blank), hdigits, enters⟩
      | form names' d rest' short =>
        rintro (⟨reads, enters⟩ | ⟨wrapped, rfl⟩)
        · have others := readItems_follows names' (d :: items)
            (by omega : rest'.length ≤ bound.length + 1)
          simp only [reads.not_isErrorDatum]
          revert others
          cases readItems bound names' (d :: items) rest' _ with
          | form names'' e rest'' short' =>
            rintro (⟨ds, rfl, readsAll, enters'⟩ | failed)
            · refine .inl ⟨d :: ds, by simp, htext ▸ .item (reads.blanks blank) readsAll, ?_⟩
              exact enters.trans enters'
            · exact .inr failed
          | overlong names'' digits =>
            rintro ⟨ds, token, stops, hdigits, enters'⟩
            exact ⟨d :: ds, token, htext ▸ .later (reads.blanks blank) stops, hdigits,
              enters.trans enters'⟩
        · by_cases error : isErrorDatum d = true
          · simp only [error, if_true]
            exact .inr ⟨error, rfl⟩
          -- An error behind a quote has used the text up, so the list has no end.
          · simp only [error]
            rw [readItems_end rfl]
            exact .inr ⟨rfl, rfl⟩
termination_by 2 * text.length + 1

end

theorem skipBlanks_append_cons {blanks text : List Char} {c : Char}
    (blank : ∀ c ∈ blanks, isBlank c = true) (hc : isBlank c = false) :
    skipBlanks (blanks ++ c :: text) = c :: text := by
  rw [skipBlanks, List.dropWhile_append_of_pos blank, List.dropWhile_cons_of_neg (by simp [hc])]

theorem not_isBlank_of_not_isDelimiter {c : Char} (h : isDelimiter c = false) :
    isBlank c = false := by
  simp only [isDelimiter, Bool.or_eq_false_iff] at h
  exact h.2

theorem Reads.starts {text rest : List Char} {d : Datum} (h : Reads Classified text d rest) :
    isErrorDatum d = false ∧ ∃ c u, skipBlanks text = c :: u ∧ c ≠ ')' := by
  cases h with
  | @atom blanks token rest a blank nonempty run ends atom =>
    obtain ⟨c, token, rfl⟩ := List.exists_cons_of_ne_nil nonempty
    have hc := run c (by simp)
    refine ⟨?_, c, token ++ rest,
      skipBlanks_append_cons blank (not_isBlank_of_not_isDelimiter hc), fun e => ?_⟩
    · cases a with
      | error message => exact absurd atom classify_ne_error
      | _ => rfl
    · rw [e] at hc
      cases hc
  | @list blanks text rest ds blank items =>
    refine ⟨?_, '(', text, skipBlanks_append_cons blank (by decide), by decide⟩
    cases ds <;> rfl
  | quote blank form =>
    exact ⟨rfl, '\'', _, skipBlanks_append_cons blank (by decide), by decide⟩

theorem takeWhile_token {token rest : List Char} (run : ∀ c ∈ token, isDelimiter c = false)
    (ends : EndsToken rest) : (token ++ rest).takeWhile (fun c => !isDelimiter c) = token ∧
      (token ++ rest).dropWhile (fun c => !isDelimiter c) = rest := by
  have hrest : rest.takeWhile (fun c => !isDelimiter c) = [] ∧
      rest.dropWhile (fun c => !isDelimiter c) = rest := by
    cases rest with
    | nil => exact ⟨rfl, rfl⟩
    | cons c rest =>
      have hc := ends c rfl
      simp [hc]
  have hpos : ∀ c ∈ token, (!isDelimiter c) = true := fun c hc => by simp [run c hc]
  rw [List.takeWhile_append_of_pos hpos, List.dropWhile_append_of_pos hpos, hrest.1, hrest.2]
  exact ⟨List.append_nil _, rfl⟩

mutual

theorem Reads.run {text rest : List Char} {d : Datum} : Reads Classified text d rest →
    ∀ (bound : List Char) (names : List String) (text' : List Char),
      skipBlanks text' = skipBlanks text → ∀ fits : text'.length ≤ bound.length + 1,
        ∃ names' short, readForm bound names text' fits = .form names' d rest short
  | @Reads.atom _ blanks token rest a blank nonempty run ends atom, bound, names, text', same,
      fits => by
    obtain ⟨htake, hdrop⟩ := takeWhile_token run ends
    obtain ⟨c, token', rfl⟩ := List.exists_cons_of_ne_nil nonempty
    have hc := run c (by simp)
    have hskip := same.trans (skipBlanks_append_cons blank (not_isBlank_of_not_isDelimiter hc))
    obtain ⟨short, hread⟩ := readForm_token names hskip hc fits
    obtain ⟨short', htoken⟩ := readToken_eq names short htake hdrop atom
    exact ⟨a.names ++ names, short', hread.trans htoken⟩
  | .list blank items, bound, names, text', same, fits => by
    have hskip := same.trans (skipBlanks_append_cons blank (by decide))
    obtain ⟨names', short, hread⟩ := items.run bound names []
      (Nat.le_trans (Nat.le_of_lt (length_lt_of_skipBlanks_eq hskip)) fits)
    exact ⟨names', short, (readForm_open hskip fits).trans hread⟩
  | .quote blank form, bound, names, text', same, fits => by
    have hskip := same.trans (skipBlanks_append_cons blank (by decide))
    obtain ⟨names', short, hread⟩ := form.run bound names _ rfl
      (Nat.le_trans (Nat.le_of_lt (length_lt_of_skipBlanks_eq hskip)) fits)
    refine ⟨"quote" :: names', short, ?_⟩
    rw [readForm_quote hskip fits, hread]

theorem ReadsItems.run {text rest : List Char} {ds : List Datum} :
    ReadsItems Classified text ds rest →
    ∀ (bound : List Char) (names : List String) (items : List Datum)
      (fits : text.length ≤ bound.length + 1), ∃ names' short,
        readItems bound names items text fits =
          .form names' (.ofList .nil (items.reverse ++ ds)) rest short
  | @ReadsItems.close _ blanks rest blank, bound, names, items, fits => by
    have hskip : skipBlanks (blanks ++ ')' :: rest) = ')' :: rest :=
      skipBlanks_append_cons blank (by decide)
    rw [List.append_nil]
    exact ⟨names, _, readItems_close hskip fits⟩
  | @ReadsItems.item _ text middle rest d ds first others, bound, names, items, fits => by
    obtain ⟨noError, c, u, hskip, close⟩ := first.starts
    have hblank := not_isBlank_of_skipBlanks hskip
    have same : skipBlanks (c :: u) = skipBlanks text :=
      (skipBlanks_append_cons (List.forall_mem_nil _) hblank).trans hskip.symm
    obtain ⟨names', short, hread⟩ := first.run u names (c :: u) same (Nat.le_refl _)
    obtain ⟨names'', short', hitems⟩ := others.run bound names' (d :: items) (Nat.le_trans short
      (Nat.le_trans (Nat.le_of_lt (length_lt_of_skipBlanks_eq hskip)) fits))
    refine ⟨names'', short', ?_⟩
    rw [readItems_item hskip close fits, hread]
    simp only [noError]
    rw [List.reverse_cons, List.append_assoc] at hitems
    exact hitems

end

/-- Without overlong numerals, tokens are taken for what they stand for. -/
theorem Reads.classified {text rest : List Char} {d : Datum} (h : Reads TokenAtom text d rest)
    (short : NoOverlong text) : Reads Classified text d rest :=
  h.imp fun token _ ht atom => classify_eq_ok atom (short token ht)

/-- All lists in the datum end in `nil`. -/
def ProperLists : Datum → Prop
  | .atom _ => True
  | .cons a d => ProperLists a ∧ ProperLists d ∧ d.spine.2 = .nil

/-- What an atom that has been read can be: a number in range, or a symbol whose name is a token. -/
def Atom.FromToken : Atom → Prop
  | .nil => True
  | .num n => -2147483648 ≤ n.val ∧ n.val ≤ 2147483647
  | .sym name => name.toList ≠ [] ∧ ∀ c ∈ name.toList, isDelimiter c = false
  | .error _ => False

theorem properLists_ofList {ds : List Datum} (h : ∀ d ∈ ds, ProperLists d) :
    ProperLists (.ofList .nil ds) := by
  induction ds with
  | nil => trivial
  | cons d ds ih =>
    refine ⟨h d (by simp), ih fun e he => h e (List.mem_cons_of_mem d he), ?_⟩
    exact congrArg Prod.snd (Sexp.spine_ofList .nil ds)

mutual

theorem Reads.properLists {text rest : List Char} {d : Datum} :
    Reads TokenAtom text d rest → ProperLists d
  | .atom _ _ _ _ _ => trivial
  | .list _ items => properLists_ofList items.properLists
  | .quote _ form => ⟨trivial, ⟨form.properLists, trivial, rfl⟩, rfl⟩

theorem ReadsItems.properLists {text rest : List Char} {ds : List Datum} :
    ReadsItems TokenAtom text ds rest → ∀ d ∈ ds, ProperLists d
  | .close _ => by simp
  | .item first others => List.forall_mem_cons.2 ⟨first.properLists, others.properLists⟩

end

theorem TokenAtom.fromToken {token : List Char} {a : Atom} (h : TokenAtom token a)
    (nonempty : token ≠ []) (run : ∀ c ∈ token, isDelimiter c = false) : a.FromToken := by
  cases h with
  | num _ _ => exact ⟨Fixnum.lower _, Fixnum.upper _⟩
  | nil _ => trivial
  | sym _ _ =>
    simp only [Atom.FromToken, String.toList_ofList]
    exact ⟨nonempty, run⟩

theorem quote_fromToken : (Atom.sym "quote").FromToken :=
  ⟨by decide, not_isDelimiter_of_all (by decide)⟩

mutual

/-- All atoms of what is read stand for tokens, end lists or head quotations. -/
theorem Reads.all {meaning : List Char → Atom → Prop} {P : Atom → Prop}
    (tokens : ∀ token a, token ≠ [] → (∀ c ∈ token, isDelimiter c = false) → meaning token a → P a)
    (hnil : P .nil) (hquote : P (.sym "quote")) {text rest : List Char} {d : Datum} :
    Reads meaning text d rest → d.All P
  | .atom _ nonempty run _ atom => tokens _ _ nonempty run atom
  | .list _ items => Sexp.all_ofList hnil (items.all tokens hnil hquote)
  | .quote _ form => (quoted_all hquote hnil).2 (form.all tokens hnil hquote)

theorem ReadsItems.all {meaning : List Char → Atom → Prop} {P : Atom → Prop}
    (tokens : ∀ token a, token ≠ [] → (∀ c ∈ token, isDelimiter c = false) → meaning token a → P a)
    (hnil : P .nil) (hquote : P (.sym "quote")) {text rest : List Char} {ds : List Datum} :
    ReadsItems meaning text ds rest → ∀ d ∈ ds, d.All P
  | .close _ => by simp
  | .item first others => List.forall_mem_cons.2
    ⟨first.all tokens hnil hquote, others.all tokens hnil hquote⟩

end

theorem Reads.fromTokens {text rest : List Char} {d : Datum} (h : Reads TokenAtom text d rest) :
    d.All Atom.FromToken :=
  h.all (fun _ _ nonempty run atom => atom.fromToken nonempty run) trivial quote_fromToken

theorem TokenAtom.named {token : List Char} {a : Atom} (h : TokenAtom token a) :
    a ≠ .sym "nil" := by
  cases h with
  | sym name _ => exact fun e => name (ofList_eq_iff.1 (Atom.sym.inj e))
  | _ => simp

theorem Reads.named {text rest : List Char} {d : Datum} (h : Reads Converts text d rest) :
    Named d :=
  h.all (fun _ _ _ _ atom => atom.1.named) (by simp) (by decide)

theorem Sexp.All.imp {α : Type} {p q : α → Prop} (h : ∀ a, p a → q a) {t : Sexp α}
    (ht : t.All p) : t.All q := by
  induction t with
  | atom a => exact h a ht
  | cons _ _ ihCar ihCdr => exact ⟨ihCar ht.1, ihCdr ht.2⟩

theorem Reads.errorFree {text rest : List Char} {d : Datum} (h : Reads TokenAtom text d rest) :
    ErrorFree d := by
  refine h.fromTokens.imp fun a ha message e => ?_
  rw [e] at ha
  exact ha

theorem read_of_form {s : Store} {table : Nat} {text rest : List Char} {names : List String}
    {d : Datum} {short : rest.length ≤ text.length} (hT : table < s.tables.size)
    (h : readForm text [] text (Nat.le_succ _) = .form names d rest short) : ∃ v s',
      read table text s = .ok (v, rest) s' ∧ AddsData s s' ∧
      Unfolds s' (s'.IsAtom table) (s.cells.size ≤ ·) v d := by
  have follows := readForm_follows [] (Nat.le_succ text.length)
  have spec := (readForm text [] text (Nat.le_succ _)).store_spec hT
  rw [h] at follows spec
  obtain ⟨v, s', hread, adds, unfolds⟩ := spec
  refine ⟨v, s', ?_, adds, unfolds ?_⟩
  · rw [read, h]
    exact hread
  · rcases follows with ⟨reads, -⟩ | ⟨wrapped, -⟩
    · exact reads.named
    · exact wrapped.named

/-- A value that has been read is a datum of the grammar or an error, perhaps behind quotes. -/
theorem read_spec {s s' : Store} {table : Nat} {text rest : List Char} {v : Value}
    (hT : table < s.tables.size) (h : read table text s = .ok (v, rest) s') :
    AddsData s s' ∧ ∃ names d short,
      readForm text [] text (Nat.le_succ _) = .form names d rest short ∧
      Unfolds s' (s'.IsAtom table) (s.cells.size ≤ ·) v d ∧
      (Reads Converts text d rest ∨ Wrapped d) := by
  obtain ⟨names, d, short, hform⟩ := read_eq_ok h
  obtain ⟨_, _, hread, adds, unfolds⟩ := read_of_form hT hform
  cases hread.symm.trans h
  have follows := readForm_follows [] (Nat.le_succ text.length)
  rw [hform] at follows
  exact ⟨adds, names, d, short, hform, unfolds, follows.imp And.left And.left⟩

def ReadsOrFails (text : List Char) (d : Datum) (rest : List Char) : Prop :=
  (ErrorFree d ∧ Reads TokenAtom text d rest) ∨ (¬ErrorFree d ∧ rest = [])

/-- Reading a text without overlong numerals has a value, in new cells. -/
theorem exists_read {s : Store} {table : Nat} {text : List Char} (hT : table < s.tables.size)
    (short : NoOverlong text) : ∃ names d rest short' v s',
      readForm text [] text (Nat.le_succ _) = .form names d rest short' ∧
      read table text s = .ok (v, rest) s' ∧ AddsData s s' ∧
      Unfolds s' (s'.IsAtom table) (s.cells.size ≤ ·) v d ∧ ReadsOrFails text d rest := by
  have follows := readForm_follows [] (Nat.le_succ text.length)
  cases h : readForm text [] text (Nat.le_succ _) with
  | form names d rest short' =>
    rw [h] at follows
    obtain ⟨v, s', hread, adds, unfolds⟩ := read_of_form hT h
    refine ⟨names, d, rest, short', v, s', rfl, hread, adds, unfolds, ?_⟩
    rcases follows with ⟨reads, -⟩ | ⟨wrapped, rfl⟩
    · have reads := reads.imp fun _ _ _ atom => atom.1
      exact .inl ⟨reads.errorFree, reads⟩
    · exact .inr ⟨wrapped.not_errorFree, rfl⟩
  | overlong names digits =>
    rw [h] at follows
    obtain ⟨ds, token, stops, -⟩ := follows
    exact absurd stops short.not_stops

/-- A text without overlong numerals is read to a value without errors exactly if the grammar
derives what it denotes, and the grammar derives at most one datum from it: proper lists of numbers
in range and of symbols that the table has under the names that are written. -/
theorem read_iff_reads {s : Store} {table : Nat} {text : List Char} (hT : table < s.tables.size)
    (short : NoOverlong text) :
    (∀ d rest, (∃ v s', read table text s = .ok (v, rest) s' ∧ Denotes s' table v d ∧
      ErrorFree d) ↔ Reads TokenAtom text d rest) ∧
    (∀ d₁ rest₁ d₂ rest₂, Reads TokenAtom text d₁ rest₁ → Reads TokenAtom text d₂ rest₂ →
      d₁ = d₂ ∧ rest₁ = rest₂) ∧
    (∀ d rest, Reads TokenAtom text d rest → ProperLists d ∧ d.All Atom.FromToken) ∧
    ∃ v rest s' d, read table text s = .ok (v, rest) s' ∧ Denotes s' table v d := by
  obtain ⟨names, d, rest, short', v, s', hform, hread, -, unfolds, outcome⟩ := exists_read hT short
  have denotes := unfolds.denotes
  have same : ∀ {e rest'}, Reads TokenAtom text e rest' → e = d ∧ rest' = rest := by
    intro e rest' reads
    obtain ⟨_, _, hrun⟩ := (reads.classified short).run text [] text rfl (Nat.le_succ _)
    cases hrun.symm.trans hform
    exact ⟨rfl, rfl⟩
  refine ⟨fun e rest' => ⟨?_, fun reads => ?_⟩, fun d₁ rest₁ d₂ rest₂ h₁ h₂ => ?_,
    fun _ _ reads => ⟨reads.properLists, reads.fromTokens⟩, v, rest, s', d, hread, denotes⟩
  · rintro ⟨w, s'', hread', denotes', errorFree⟩
    cases hread.symm.trans hread'
    cases denotes.unique denotes'
    rcases outcome with ⟨-, reads⟩ | ⟨error, -⟩
    · exact reads
    · exact absurd errorFree error
  · obtain ⟨rfl, rfl⟩ := same reads
    exact ⟨v, s', hread, denotes, reads.errorFree⟩
  · obtain ⟨rfl, rfl⟩ := same h₁
    obtain ⟨rfl, rfl⟩ := same h₂
    exact ⟨rfl, rfl⟩

/-- A quoted symbol and a negative number in nested lists, in front of further text. -/
theorem read_iff_reads_nested : 0 < Store.empty.newTable.2.tables.size ∧
    NoOverlong "('a (-1)) b".toList ∧
    ∃ v s', read 0 "('a (-1)) b".toList Store.empty.newTable.2 = .ok (v, " b".toList) s' ∧
      Denotes s' 0 v (.ofList .nil [quoted (.atom (.sym "a")),
        .ofList .nil [.atom (.num ⟨-1, by decide, by decide⟩)]]) ∧
      ErrorFree (.ofList .nil [quoted (.atom (.sym "a")),
        .ofList .nil [.atom (.num ⟨-1, by decide, by decide⟩)]]) := by
  have symbol : Reads TokenAtom "a (-1)) b".toList (.atom (.sym "a")) " (-1)) b".toList :=
    @Reads.atom _ [] ['a'] _ _ (by simp) (by simp) (not_isDelimiter_of_all (by decide))
      (endsToken_cons (by decide : isDelimiter ' ' = true) _)
      (.sym (by decide) fun n h => absurd h (by decide))
  have number : Reads TokenAtom "-1)) b".toList (.atom (.num ⟨-1, by decide, by decide⟩))
      ")) b".toList :=
    @Reads.atom _ [] ['-', '1'] _ _ (by simp) (by simp) (not_isDelimiter_of_all (by decide))
      (endsToken_cons (by decide : isDelimiter ')' = true) _) (.num (by decide) (by decide))
  have inner := @Reads.list _ [' '] _ _ _ isBlank_space
    (.item number (@ReadsItems.close _ [] _ (by simp)))
  have outer := @Reads.list _ [] _ _ _ (by simp)
    (.item (@Reads.quote _ [] _ _ _ (by simp) symbol)
      (.item inner (@ReadsItems.close _ [] _ (by simp))))
  have short : NoOverlong "('a (-1)) b".toList := noOverlong_of_length_le (by decide)
  exact ⟨by decide, short, ((read_iff_reads (by decide) short).1 _ _).2 outer⟩

end PocketLisp
