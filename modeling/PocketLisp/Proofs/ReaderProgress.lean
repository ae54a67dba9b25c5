import PocketLisp.Proofs.EnteredNames

/-!
# Progress of the reader

Reading ends however malformed the text is. The reader is told here in counted rounds, a round for
each form and for each turn of the loop over the forms of a list, and it never needs more rounds
than twice the length of the text and a few more. What a reading leaves is the end of the text, and
less than the whole of it. So a text is used up by reading it again and again from what was left.
-/
namespace PocketLisp

/-- An outcome of reading, without the bound on what is left of the text. -/
inductive Scan where
  | form (names : List String) (datum : Datum) (rest : List Char)
  | overlong (names : List String) (digits : Nat)

namespace Scan

def failure (names : List String) (message : String) : Scan :=
  .form names (.atom (.error message)) []

def quote : Scan → Scan
  | .form names d rest => .form ("quote" :: names) (quoted d) rest
  | .overlong names digits => .overlong names digits

end Scan

def Reading.scan {bound : List Char} : Reading bound → Scan
  | .form names d rest _ => .form names d rest
  | .overlong names digits => .overlong names digits

def scanToken (names : List String) (text : List Char) : Scan :=
  (readToken names text (List.dropWhile_sublist _).length_le : Reading text).scan

mutual

/-- Reads one form in a number of rounds, which may be too few. -/
def scanForm : Nat → List String → List Char → Option Scan
  | 0, _, _ => none
  | rounds + 1, names, text =>
    match skipBlanks text with
    | [] => some (.failure names "empty input")
    | c :: rest =>
      if c = ')' then some (.failure names ("invalid syntax: " ++ String.ofList (c :: rest)))
      else if c = '(' then scanItems rounds names [] rest
      else if c = '\'' then (scanForm rounds names rest).map Scan.quote
      else some (scanToken names (c :: rest))

/-- Reads the forms of a list in a number of rounds, one for each turn of the loop. -/
def scanItems : Nat → List String → List Datum → List Char → Option Scan
  | 0, _, _, _ => none
  | rounds + 1, names, items, text =>
    match skipBlanks text with
    | [] => some (.failure names "unfinished parenthesis")
    | c :: rest =>
      if c = ')' then some (.form names (.ofList .nil items.reverse) rest)
      else match scanForm rounds names (c :: rest) with
        | none => none
        | some (.form names d rest') =>
          if isErrorDatum d then some (.form names d [])
          else scanItems rounds names (d :: items) rest'
        | some (.overlong names digits) => some (.overlong names digits)

end

section rounds

variable {bound text rest : List Char} {names : List String} {c : Char}

theorem scan_readToken (short : (text.dropWhile (fun c => !isDelimiter c)).length ≤ bound.length) :
    (readToken names text short).scan = scanToken names text := by
  unfold scanToken readToken
  cases classify (text.takeWhile (fun c => !isDelimiter c)) <;> rfl

theorem ne_of_not_isDelimiter (hc : isDelimiter c = false) : c ≠ ')' ∧ c ≠ '(' ∧ c ≠ '\'' := by
  refine ⟨?_, ?_, ?_⟩ <;> rintro rfl <;> cases hc

mutual

/-- Enough rounds for a form: each character is good for two of them, one that reads a form in front
of it and one that goes on with the loop of the list around it. -/
theorem scanForm_eq {bound text : List Char} (names : List String) {rounds : Nat}
    (fits : text.length ≤ bound.length + 1) (enough : 2 * text.length < rounds) :
    scanForm rounds names text = some (readForm bound names text fits).scan := by
  obtain ⟨rounds, rfl⟩ := Nat.exists_eq_succ_of_ne_zero (Nat.ne_of_gt (Nat.zero_lt_of_lt enough))
  obtain ⟨t, rest, starts⟩ := exists_starts text
  cases starts with
  | nothing h =>
    rw [readForm_end h, scanForm, h]
    rfl
  | closing h =>
    rw [readForm_close h, scanForm, h]
    rfl
  | opening h =>
    have shorter := length_lt_of_skipBlanks_eq h
    rw [readForm_open h, scanForm, h]
    exact scanItems_eq names [] _ (by omega)
  | quote h =>
    have shorter := length_lt_of_skipBlanks_eq h
    have fits' : rest.length ≤ bound.length + 1 := Nat.le_trans (Nat.le_of_lt shorter) fits
    have inner : scanForm rounds names rest = some (readForm bound names rest fits').scan :=
      scanForm_eq names fits' (by omega)
    rw [readForm_quote h, scanForm, h]
    change (scanForm rounds names rest).map Scan.quote = _
    rw [inner]
    cases readForm bound names rest _ <;> rfl
  | word hc h _ _ =>
    obtain ⟨short, read⟩ := readForm_token names h hc fits
    obtain ⟨close, list, quote⟩ := ne_of_not_isDelimiter hc
    rw [read, scan_readToken, scanForm, h]
    simp only [close, list, quote, ↓reduceIte]
termination_by 2 * text.length

/-- Enough rounds for the forms of a list: an element leaves less than there was in front of it. -/
theorem scanItems_eq {bound text : List Char} (names : List String) (items : List Datum)
    {rounds : Nat} (fits : text.length ≤ bound.length + 1)
    (enough : 2 * text.length + 1 < rounds) :
    scanItems rounds names items text = some (readItems bound names items text fits).scan := by
  obtain ⟨rounds, rfl⟩ := Nat.exists_eq_succ_of_ne_zero (Nat.ne_of_gt (Nat.zero_lt_of_lt enough))
  cases h : skipBlanks text with
  | nil =>
    rw [readItems_end h, scanItems, h]
    rfl
  | cons c rest =>
    have shorter := length_lt_of_skipBlanks_eq h
    by_cases close : c = ')'
    · subst close
      rw [readItems_close h, scanItems, h]
      rfl
    · have first : scanForm rounds names (c :: rest) =
          some (readForm rest names (c :: rest) (Nat.le_refl _)).scan :=
        scanForm_eq names (Nat.le_refl _) (by rw [List.length_cons]; omega)
      rw [readItems_item h close, scanItems, h]
      simp only [close, ↓reduceIte, first]
      cases readForm rest names (c :: rest) _ with
      | overlong _ _ => rfl
      | form names d rest' short =>
        simp only [Reading.scan]
        split
        · rfl
        · exact scanItems_eq names (d :: items) _ (by omega)
termination_by 2 * text.length + 1

end

end rounds

/-- What is left after a reading is the end of the text, and less than the whole of it. -/
structure Advances (text rest : List Char) : Prop where
  suffix : rest <:+ text
  shorter : text ≠ [] → rest.length < text.length

/-- A run of a reader on a text returns and has advanced, or it stops at an overlong numeral of the
text. -/
def Progresses (text : List Char) (s : Store) (x : Run (Value × List Char)) : Prop :=
  (∃ v rest s', x s = .ok (v, rest) s' ∧ Advances text rest ∧ Resumes text rest) ∨
    ∃ digits s', x s = .error (.fault (.overlong digits)) s' ∧ ¬NoOverlong text

section progress

variable {text rest : List Char} {table : Nat} {s : Store}

theorem Resumes.suffix (h : Resumes text rest) : rest <:+ text := by
  obtain ⟨before, rfl, -⟩ := h
  exact List.suffix_append before rest

/-- A reading advances if the bound on what it leaves may be less than the text. -/
theorem Reading.progresses {r : Reading text} (enters : r.EntersIn [] text)
    (tight : ∀ c more, text = c :: more → ∃ r' : Reading more, r'.scan = r.scan)
    (overlong : ∀ names digits, r = .overlong names digits → ¬NoOverlong text) :
    Progresses text s (r.store table) := by
  cases r with
  | form names d rest short =>
    obtain ⟨-, -, resumes⟩ := enters
    refine .inl ⟨_, rest, _, rfl, ⟨resumes.suffix, fun nonempty => ?_⟩, resumes⟩
    obtain ⟨c, more, rfl⟩ := List.exists_cons_of_ne_nil nonempty
    obtain ⟨r', same⟩ := tight c more rfl
    cases r' with
    | form _ _ _ short' =>
      cases same
      exact Nat.lt_succ_of_le short'
    | overlong _ _ => cases same
  | overlong names digits => exact .inr ⟨digits, _, rfl, overlong names digits rfl⟩

theorem read_progresses (table : Nat) (text : List Char) (s : Store) :
    Progresses text s (read table text) := by
  refine Reading.progresses (readForm_entersIn [] _) ?_ fun names digits h short => ?_
  · rintro c more rfl
    have enough := Nat.lt_succ_self (2 * (c :: more).length)
    exact ⟨readForm more [] (c :: more) (Nat.le_refl _),
      Option.some.inj ((scanForm_eq [] _ enough).symm.trans (scanForm_eq [] _ enough))⟩
  · have follows := readForm_follows [] (Nat.le_succ text.length)
    rw [h] at follows
    obtain ⟨ds, token, stops, -⟩ := follows
    exact short.not_stops stops

theorem readList_progresses (table : Nat) (text : List Char) (s : Store) :
    Progresses text s (readList table text) := by
  have enters := readItems_entersIn [] [] (List.forall_mem_nil _) (Nat.le_succ text.length)
  refine Reading.progresses enters ?_ fun names digits h short => ?_
  · rintro c more rfl
    have enough := Nat.lt_succ_self (2 * (c :: more).length + 1)
    exact ⟨readItems more [] [] (c :: more) (Nat.le_refl _),
      Option.some.inj ((scanItems_eq [] [] _ enough).symm.trans (scanItems_eq [] [] _ enough))⟩
  · have follows := readItems_follows [] [] (Nat.le_succ text.length)
    rw [h] at follows
    obtain ⟨ds, token, stops, -⟩ := follows
    obtain ⟨isToken, numeral, long⟩ := stops.isToken
    exact Nat.not_lt.2 (short token isToken numeral) long

end progress

/-- Reads as often as told, each time from what was left before; the result is what is left. -/
def readAgain (table : Nat) : Nat → List Char → Run (List Char)
  | 0, text => return text
  | count + 1, text => do
    let (_, rest) ← read table text
    readAgain table count rest

/-- As many reads as there are characters use a text up, unless one of them stops. -/
theorem readAgain_empties (table : Nat) {count : Nat} {text : List Char}
    (enough : text.length ≤ count) (s : Store) :
    (∃ s', readAgain table count text s = .ok [] s') ∨
      ∃ digits s', readAgain table count text s = .error (.fault (.overlong digits)) s' ∧
        ¬NoOverlong text := by
  induction count generalizing text s with
  | zero =>
    obtain rfl := List.length_eq_zero_iff.1 (Nat.le_zero.1 enough)
    exact .inl ⟨s, rfl⟩
  | succ count ih =>
    rcases read_progresses table text s with
      ⟨v, rest, s₁, ran, advances, resumes⟩ | ⟨digits, s₁, ran, overlong⟩
    · have fewer : rest.length ≤ count := by
        by_cases empty : text = []
        · subst empty
          rw [List.suffix_nil.1 advances.suffix]
          exact Nat.zero_le count
        · have := advances.shorter empty
          omega
      rw [readAgain, Run.bind_apply_of_ok ran]
      exact (ih fewer s₁).imp_right fun ⟨digits, s', stopped, overlong⟩ =>
        ⟨digits, s', stopped, fun short => overlong (short.of_resumes resumes)⟩
    · exact .inr ⟨digits, s₁, Run.bind_apply_of_error ran _, overlong⟩

/-- The reader always makes progress. Whatever the text, reading a form of it or the rest of a list
ends within twice as many rounds as there are characters, and a few more. When it returns, the end
of the text is left, and less than the whole of it unless there was nothing. So as many reads as
there are characters use a text up, unless one of them stops at an overlong numeral. -/
theorem reading_progresses (table : Nat) (text : List Char) (s : Store) :
    (∀ rounds, 2 * text.length < rounds →
      scanForm rounds [] text = some (readForm text [] text (Nat.le_succ _)).scan) ∧
    (∀ rounds, 2 * text.length + 1 < rounds →
      scanItems rounds [] [] text = some (readItems text [] [] text (Nat.le_succ _)).scan) ∧
    Progresses text s (read table text) ∧ Progresses text s (readList table text) ∧
    (∀ count, text.length ≤ count → (∃ s', readAgain table count text s = .ok [] s') ∨
      ∃ digits s', readAgain table count text s = .error (.fault (.overlong digits)) s' ∧
        ¬NoOverlong text) :=
  ⟨fun _ enough => scanForm_eq [] _ enough, fun _ enough => scanItems_eq [] [] _ enough,
    read_progresses table text s, readList_progresses table text s,
    fun _ enough => readAgain_empties table enough s⟩

/-- A number, and then a list in which a quote stands in front of the closing parenthesis. -/
theorem reading_progresses_malformed : NoOverlong "1(')".toList ∧
    (scanForm 9 [] "1(')".toList).isSome ∧
    (∃ v rest s', read 0 "1(')".toList .empty = .ok (v, rest) s' ∧ rest.length < 4) ∧
    ∃ s', readAgain 0 4 "1(')".toList .empty = .ok [] s' := by
  have short : NoOverlong "1(')".toList := noOverlong_of_length_le (by decide)
  obtain ⟨form, -, first, -, all⟩ := reading_progresses 0 "1(')".toList .empty
  refine ⟨short, ?_, ?_, ?_⟩
  · rw [form 9 (by decide)]
    rfl
  · obtain ⟨v, rest, s', ran, advances, -⟩ | ⟨_, _, _, overlong⟩ := first
    · exact ⟨v, rest, s', ran, advances.shorter (by decide)⟩
    · exact absurd short overlong
  · obtain emptied | ⟨_, _, _, overlong⟩ := all 4 (by decide)
    · exact emptied
    · exact absurd short overlong

end PocketLisp
