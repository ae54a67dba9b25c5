import PocketLisp.Proofs.ReaderRuns

/-!
# Tokens and layout

A text is read by its tokens: parentheses, quotes and words. Blanks only part words. Texts with the
same tokens are read to the same datum, and what is left of them has the same tokens again. But a
closing parenthesis with nothing but quotes in front of it is refused with the text that it starts.
-/
namespace PocketLisp

inductive Token where
  | opening
  | closing
  | quote
  | word (characters : List Char)
  deriving DecidableEq, Repr

/-- Puts a character of a word in front of the tokens of the text after it. Where this starts with a
word, the character belongs to it. -/
def joinWord (c : Char) : List Char → List Token → List Token
  | d :: _, .word w :: ts =>
    if isDelimiter d then .word [c] :: .word w :: ts else .word (c :: w) :: ts
  | _, ts => .word [c] :: ts

def tokens : List Char → List Token
  | [] => []
  | c :: text =>
    if c = '(' then .opening :: tokens text
    else if c = ')' then .closing :: tokens text
    else if c = '\'' then .quote :: tokens text
    else if isBlank c then tokens text
    else joinWord c text (tokens text)

section tokens

variable {text text' rest : List Char} {c : Char}

theorem tokens_blank (hc : isBlank c = true) (text : List Char) :
    tokens (c :: text) = tokens text := by
  have noDelimiter : ∀ d ∈ ['(', ')', '\''], c ≠ d := by
    rintro d hd rfl
    revert hc
    simp only [List.mem_cons, List.not_mem_nil, or_false] at hd
    rcases hd with rfl | rfl | rfl <;> decide
  simp only [List.forall_mem_cons, List.not_mem_nil, false_implies, implies_true, and_true]
    at noDelimiter
  simp [tokens, noDelimiter, hc]

theorem tokens_skipBlanks (text : List Char) : tokens (skipBlanks text) = tokens text := by
  induction text with
  | nil => rfl
  | cons c text ih =>
    by_cases hc : isBlank c = true
    · rw [tokens_blank hc, ← ih, skipBlanks, List.dropWhile_cons_of_pos hc, skipBlanks]
    · rw [skipBlanks, List.dropWhile_cons_of_neg hc]

theorem tokens_cons_word (hc : isDelimiter c = false) (text : List Char) :
    tokens (c :: text) = joinWord c text (tokens text) := by
  simp only [isDelimiter, Bool.or_eq_false_iff, decide_eq_false_iff_not] at hc
  obtain ⟨⟨⟨h1, h2⟩, h3⟩, h4⟩ := hc
  simp [tokens, h1, h2, h3, h4]

theorem tokens_word (hc : isDelimiter c = false) (rest : List Char) :
    tokens (c :: rest) = .word ((c :: rest).takeWhile (fun c => !isDelimiter c)) ::
      tokens ((c :: rest).dropWhile (fun c => !isDelimiter c)) := by
  rw [tokens_cons_word hc]
  induction rest generalizing c with
  | nil => simp [tokens, joinWord, hc]
  | cons d rest ih =>
    by_cases hd : isDelimiter d = true
    · have alone : joinWord c (d :: rest) (tokens (d :: rest)) =
          .word [c] :: tokens (d :: rest) := by
        unfold joinWord
        split
        · next h h' =>
          cases h
          rw [if_pos hd, h']
        · rfl
      simp [alone, hc, hd]
    · rw [Bool.not_eq_true] at hd
      have others := (tokens_cons_word hd rest).trans (ih hd)
      rw [others]
      simp [joinWord, hc, hd]

theorem tokens_concat_blank (hc : isBlank c = true) (text : List Char) :
    tokens (text ++ [c]) = tokens text := by
  induction text with
  | nil => exact tokens_blank hc []
  | cons d text ih =>
    have joined : joinWord d (text ++ [c]) (tokens text) = joinWord d text (tokens text) := by
      cases text with
      | nil => rfl
      | cons e text =>
        cases tokens (e :: text) with
        | nil => rfl
        | cons t ts => cases t <;> rfl
    simp only [List.cons_append, tokens, ih, joined]

/-- The first token of a text, if it has one, and the text after it. -/
inductive Starts (text : List Char) : Option Token → List Char → Prop where
  | nothing (h : skipBlanks text = []) : Starts text none []
  | opening {rest : List Char} (h : skipBlanks text = '(' :: rest) :
      Starts text (some .opening) rest
  | closing {rest : List Char} (h : skipBlanks text = ')' :: rest) :
      Starts text (some .closing) rest
  | quote {rest : List Char} (h : skipBlanks text = '\'' :: rest) : Starts text (some .quote) rest
  | word {c : Char} {rest token after : List Char} (hc : isDelimiter c = false)
      (h : skipBlanks text = c :: rest)
      (htake : (c :: rest).takeWhile (fun c => !isDelimiter c) = token)
      (hdrop : (c :: rest).dropWhile (fun c => !isDelimiter c) = after) :
      Starts text (some (.word token)) after

theorem exists_starts (text : List Char) : ∃ t rest, Starts text t rest := by
  cases h : skipBlanks text with
  | nil => exact ⟨none, [], .nothing h⟩
  | cons c rest =>
    by_cases hc : isDelimiter c = true
    · have hblank := not_isBlank_of_skipBlanks h
      simp only [isDelimiter, hblank, Bool.or_false, Bool.or_eq_true, decide_eq_true_eq] at hc
      rcases hc with (rfl | rfl) | rfl
      · exact ⟨_, rest, .opening h⟩
      · exact ⟨_, rest, .closing h⟩
      · exact ⟨_, rest, .quote h⟩
    · exact ⟨_, _, .word (Bool.not_eq_true _ ▸ hc) h rfl rfl⟩

theorem Starts.tokens_eq {t : Option Token} (h : Starts text t rest) :
    tokens text = t.toList ++ tokens rest := by
  rw [← tokens_skipBlanks]
  cases h with
  | nothing h => rw [h]; rfl
  | opening h => rw [h]; rfl
  | closing h => rw [h]; rfl
  | quote h => rw [h]; rfl
  | word hc h htake hdrop =>
    rw [h, tokens_word hc, htake, hdrop]
    rfl

theorem Starts.exists_cons {t : Token} (h : Starts text (some t) rest) (other : t ≠ .closing) :
    ∃ c r, skipBlanks text = c :: r ∧ c ≠ ')' := by
  cases h with
  | opening h => exact ⟨_, _, h, by decide⟩
  | closing h => exact absurd rfl other
  | quote h => exact ⟨_, _, h, by decide⟩
  | word hc h _ _ =>
    refine ⟨_, _, h, ?_⟩
    rintro rfl
    cases hc

theorem Starts.rest_eq_nil (h : Starts text none rest) : rest = [] := by
  cases h
  rfl

/-- Texts with the same tokens start with the same one, and go on with the same tokens. -/
theorem Starts.of_tokens {t : Option Token} (h : Starts text t rest)
    (same : tokens text' = tokens text) :
    ∃ rest', Starts text' t rest' ∧ tokens rest' = tokens rest := by
  obtain ⟨t', rest', h'⟩ := exists_starts text'
  rw [h.tokens_eq, h'.tokens_eq] at same
  cases t with
  | none =>
    obtain rfl := h.rest_eq_nil
    cases t' with
    | none => exact ⟨rest', h', by rw [h'.rest_eq_nil]⟩
    | some t' => cases same
  | some t =>
    cases t' with
    | none =>
      obtain rfl := h'.rest_eq_nil
      cases same
    | some t' =>
      obtain ⟨rfl, others⟩ := List.cons.inj same
      exact ⟨rest', h', others⟩

end tokens

def isLead (c : Char) : Bool := isBlank c || c = '\''

def leadingQuotes (text : List Char) : Nat := (text.takeWhile isLead).count '\''

def quotes : Nat → Datum → Datum
  | 0, d => d
  | k + 1, d => quoted (quotes k d)

def Reading.wrap {bound : List Char} (k : Nat) : Reading bound → Reading bound
  | .form names d rest short => .form (List.replicate k "quote" ++ names) (quotes k d) rest short
  | .overlong names digits => .overlong names digits

section lead

variable {bound text text' rest : List Char} {names : List String} {c : Char}

@[simp] theorem Reading.wrap_zero (r : Reading bound) : r.wrap 0 = r := by
  cases r <;> rfl

theorem Reading.wrap_succ (r : Reading bound) (k : Nat) : r.wrap (k + 1) =
    match r.wrap k with
    | .form names d rest short => .form ("quote" :: names) (quoted d) rest short
    | .overlong names digits => .overlong names digits := by
  cases r <;> rfl

theorem readForm_congr (same : skipBlanks text' = skipBlanks text)
    (fits : text.length ≤ bound.length + 1) (fits' : text'.length ≤ bound.length + 1) :
    readForm bound names text' fits' = readForm bound names text fits := by
  obtain ⟨t, rest, h⟩ := exists_starts text
  cases h with
  | nothing h => rw [readForm_end h, readForm_end (same.trans h)]
  | opening h => rw [readForm_open h, readForm_open (same.trans h)]
  | closing h => rw [readForm_close h, readForm_close (same.trans h)]
  | quote h => rw [readForm_quote h, readForm_quote (same.trans h)]
  | word hc h _ _ =>
    obtain ⟨short, read⟩ := readForm_token names h hc fits
    obtain ⟨short', read'⟩ := readForm_token names (same.trans h) hc fits'
    rw [read, read']

theorem isLead_of_isBlank (hc : isBlank c = true) : isLead c = true := by
  simp [isLead, hc]

theorem leadingQuotes_blank (hc : isBlank c = true) (text : List Char) :
    leadingQuotes (c :: text) = leadingQuotes text := by
  have noQuote : c ≠ '\'' := by
    rintro rfl
    cases hc
  rw [leadingQuotes, List.takeWhile_cons_of_pos (isLead_of_isBlank hc),
    List.count_cons_of_ne noQuote, leadingQuotes]

theorem leadingQuotes_quote (text : List Char) :
    leadingQuotes ('\'' :: text) = leadingQuotes text + 1 := by
  rw [leadingQuotes, List.takeWhile_cons_of_pos rfl, List.count_cons_self, leadingQuotes]

theorem leadingQuotes_other (hc : isLead c = false) (text : List Char) :
    leadingQuotes (c :: text) = 0 := by
  simp [leadingQuotes, hc]

/-- A character is a blank, a quote, or where what is quoted starts. -/
theorem lead_cases (c : Char) : isBlank c = true ∨ c = '\'' ∨ isLead c = false := by
  by_cases hblank : isBlank c = true
  · exact .inl hblank
  · by_cases hquote : c = '\''
    · exact .inr (.inl hquote)
    · exact .inr (.inr (by simp [isLead, hblank, hquote]))

/-- What is behind the quotes at the front of a text is read and quoted as often. -/
theorem readForm_lead (names : List String) (text : List Char)
    (fits : text.length ≤ bound.length + 1)
    (fits' : (text.dropWhile isLead).length ≤ bound.length + 1) :
    readForm bound names text fits =
      (readForm bound names (text.dropWhile isLead) fits').wrap (leadingQuotes text) := by
  induction text with
  | nil => simp [leadingQuotes]
  | cons c text ih =>
    have short : text.length ≤ bound.length + 1 := Nat.le_of_succ_le fits
    rcases lead_cases c with hc | rfl | hc
    · have skip : skipBlanks (c :: text) = skipBlanks text := by
        simp [skipBlanks, hc]
      simp only [List.dropWhile_cons_of_pos (isLead_of_isBlank hc)] at fits' ⊢
      rw [readForm_congr skip short fits, ih short fits', leadingQuotes_blank hc]
    · simp only [List.dropWhile_cons_of_pos (rfl : isLead '\'' = true)] at fits' ⊢
      rw [readForm_quote (rfl : skipBlanks ('\'' :: text) = '\'' :: text), ih short fits',
        leadingQuotes_quote]
      exact (Reading.wrap_succ _ _).symm
    · simp only [List.dropWhile_cons_of_neg (Bool.not_eq_true _ ▸ hc)]
      rw [leadingQuotes_other hc, Reading.wrap_zero]

/-- A closing parenthesis with nothing but quotes in front of it is refused. -/
theorem readForm_unreadable (names : List String) (h : text.dropWhile isLead = ')' :: rest)
    (fits : text.length ≤ bound.length + 1) : readForm bound names text fits =
      .form (List.replicate (leadingQuotes text) "quote" ++ names)
        (quotes (leadingQuotes text)
          (.atom (.error ("invalid syntax: " ++ String.ofList (')' :: rest))))) []
        (Nat.zero_le _) := by
  have fits' : (text.dropWhile isLead).length ≤ bound.length + 1 :=
    Nat.le_trans (List.dropWhile_sublist _).length_le fits
  have skip : skipBlanks (text.dropWhile isLead) = ')' :: rest := by
    rw [h]
    rfl
  rw [readForm_lead names text fits fits', readForm_close skip]
  rfl

/-- What is quoted starts with another token than a quote. -/
theorem tokens_other (hc : isLead c = false) (text : List Char) :
    ∃ t ts, tokens (c :: text) = t :: ts ∧ t ≠ .quote := by
  simp only [isLead, Bool.or_eq_false_iff, decide_eq_false_iff_not] at hc
  by_cases hopen : c = '('
  · subst hopen
    exact ⟨.opening, tokens text, rfl, by simp⟩
  · by_cases hclose : c = ')'
    · subst hclose
      exact ⟨.closing, tokens text, rfl, by simp⟩
    · have noDelimiter : isDelimiter c = false := by simp [isDelimiter, hopen, hclose, hc.2, hc.1]
      exact ⟨_, _, tokens_word noDelimiter text, by simp⟩

theorem tokens_lead (text : List Char) :
    leadingQuotes text = ((tokens text).takeWhile (fun t => t = .quote)).length ∧
      tokens (text.dropWhile isLead) = (tokens text).dropWhile (fun t => t = .quote) := by
  induction text with
  | nil => exact ⟨rfl, rfl⟩
  | cons c text ih =>
    rcases lead_cases c with hc | rfl | hc
    · rw [leadingQuotes_blank hc, tokens_blank hc,
        List.dropWhile_cons_of_pos (isLead_of_isBlank hc)]
      exact ih
    · have step : tokens ('\'' :: text) = .quote :: tokens text := rfl
      rw [leadingQuotes_quote, step, List.dropWhile_cons_of_pos (rfl : isLead '\'' = true)]
      simpa using ih
    · obtain ⟨t, ts, step, other⟩ := tokens_other hc text
      rw [leadingQuotes_other hc, List.dropWhile_cons_of_neg (Bool.not_eq_true _ ▸ hc), step]
      simp [other]

theorem skipBlanks_dropWhile_isLead (text : List Char) :
    skipBlanks (text.dropWhile isLead) = text.dropWhile isLead := by
  have head := List.head?_dropWhile_not isLead text
  cases h : text.dropWhile isLead with
  | nil => rfl
  | cons c rest =>
    rw [h] at head
    have noLead : isLead c = false := by simpa using head
    simp only [isLead, Bool.or_eq_false_iff] at noLead
    simp [skipBlanks, noLead.1]

theorem dropWhile_isLead_skipBlanks (text : List Char) :
    (skipBlanks text).dropWhile isLead = text.dropWhile isLead := by
  induction text with
  | nil => rfl
  | cons c text ih =>
    by_cases hc : isBlank c = true
    · rw [List.dropWhile_cons_of_pos (isLead_of_isBlank hc), ← ih, skipBlanks,
        List.dropWhile_cons_of_pos hc, skipBlanks]
    · rw [skipBlanks, List.dropWhile_cons_of_neg hc]

/-- Texts with the same tokens have the same number of quotes in front, and if one of them has a
closing parenthesis behind those, so has the other. -/
theorem lead_of_tokens (same : tokens text' = tokens text) :
    leadingQuotes text' = leadingQuotes text ∧
      (text.dropWhile isLead = ')' :: rest → ∃ rest', text'.dropWhile isLead = ')' :: rest') := by
  obtain ⟨count, drop⟩ := tokens_lead text
  obtain ⟨count', drop'⟩ := tokens_lead text'
  refine ⟨by rw [count, count', same], fun h => ?_⟩
  have starts : Starts (text.dropWhile isLead) (some .closing) rest :=
    .closing ((skipBlanks_dropWhile_isLead text).trans h)
  obtain ⟨rest', starts', -⟩ := starts.of_tokens (drop'.trans ((congrArg _ same).trans drop.symm))
  cases starts' with
  | closing h' => exact ⟨rest', (skipBlanks_dropWhile_isLead text').symm.trans h'⟩

/-- In a list the parenthesis behind the quotes cannot close it any more. -/
theorem readItems_unreadable (names : List String) (items : List Datum)
    (h : skipBlanks text = c :: rest) (hc : c ≠ ')')
    (unreadable : (c :: rest).dropWhile isLead = ')' :: text')
    (fits : text.length ≤ bound.length + 1) : readItems bound names items text fits =
      .failure (List.replicate (leadingQuotes (c :: rest)) "quote" ++ names)
        "unfinished parenthesis" := by
  obtain rfl : c = '\'' := by
    rcases lead_cases c with hblank | hquote | hother
    · cases hblank.symm.trans (not_isBlank_of_skipBlanks h)
    · exact hquote
    · rw [List.dropWhile_cons_of_neg (Bool.not_eq_true _ ▸ hother)] at unreadable
      exact absurd (List.cons.inj unreadable).1 hc
  rw [readItems_item h hc, readForm_unreadable names unreadable, leadingQuotes_quote]
  exact readItems_end rfl _

end lead

/-- Texts have been read to the same datum, with the same names entered, and what is left of them
has the same tokens; or both are refused for a numeral of the same length. -/
def Reading.Alike {bound bound' : List Char} : Reading bound → Reading bound' → Prop
  | .form names d rest _, .form names' d' rest' _ =>
    names' = names ∧ d' = d ∧ tokens rest' = tokens rest
  | .overlong names digits, .overlong names' digits' => names' = names ∧ digits' = digits
  | _, _ => False

section alike

variable {bound bound' : List Char}

theorem readToken_alike (names : List String) {text text' : List Char}
    (htake : text'.takeWhile (fun c => !isDelimiter c) = text.takeWhile (fun c => !isDelimiter c))
    (hdrop : tokens (text'.dropWhile (fun c => !isDelimiter c)) =
      tokens (text.dropWhile (fun c => !isDelimiter c)))
    (short : (text.dropWhile (fun c => !isDelimiter c)).length ≤ bound.length)
    (short' : (text'.dropWhile (fun c => !isDelimiter c)).length ≤ bound'.length) :
    (readToken names text short).Alike (readToken names text' short') := by
  unfold readToken
  rw [htake]
  cases classify (text.takeWhile (fun c => !isDelimiter c)) with
  | ok a => exact ⟨rfl, rfl, hdrop⟩
  | error digits => exact ⟨rfl, rfl⟩

mutual

/-- Texts with the same tokens are read alike, unless a closing parenthesis is where a form should
start. -/
theorem readForm_alike {bound bound' : List Char} (names : List String) {text text' : List Char}
    (same : tokens text' = tokens text) (readable : ∀ rest, text.dropWhile isLead ≠ ')' :: rest)
    (fits : text.length ≤ bound.length + 1) (fits' : text'.length ≤ bound'.length + 1) :
    (readForm bound names text fits).Alike (readForm bound' names text' fits') := by
  obtain ⟨t, rest, h⟩ := exists_starts text
  obtain ⟨rest', h', same'⟩ := h.of_tokens same
  cases h with
  | nothing h =>
    cases h' with
    | nothing h' =>
      rw [readForm_end h, readForm_end h']
      exact ⟨rfl, rfl, rfl⟩
  | opening h =>
    cases h' with
    | opening h' =>
      have shorter := length_lt_of_skipBlanks_eq h
      rw [readForm_open h, readForm_open h']
      exact readItems_alike names [] same' _ _
  | closing h =>
    rw [← dropWhile_isLead_skipBlanks, h] at readable
    exact absurd rfl (readable rest)
  | quote h =>
    cases h' with
    | quote h' =>
      have shorter := length_lt_of_skipBlanks_eq h
      have short : rest.length ≤ bound.length + 1 := Nat.le_trans (Nat.le_of_lt shorter) fits
      have short' : rest'.length ≤ bound'.length + 1 :=
        Nat.le_trans (Nat.le_of_lt (length_lt_of_skipBlanks_eq h')) fits'
      rw [← dropWhile_isLead_skipBlanks, h] at readable
      have inner := readForm_alike names same' readable short short'
      rw [readForm_quote h, readForm_quote h']
      generalize readForm bound names rest _ = r at inner ⊢
      generalize readForm bound' names rest' _ = r' at inner ⊢
      cases r with
      | form names d rest _ =>
        cases r' with
        | form names' d' rest' _ =>
          obtain ⟨rfl, rfl, same⟩ := inner
          exact ⟨rfl, rfl, same⟩
        | overlong _ _ => cases inner
      | overlong names digits =>
        cases r' with
        | form _ _ _ _ => cases inner
        | overlong names' digits' => exact inner
  | word hc h htake hdrop =>
    cases h' with
    | word hc' h' htake' hdrop' =>
      subst hdrop hdrop'
      obtain ⟨short, read⟩ := readForm_token names h hc fits
      obtain ⟨short', read'⟩ := readForm_token names h' hc' fits'
      rw [read, read']
      exact readToken_alike names (htake'.trans htake.symm) same' short short'
termination_by 2 * text.length

/-- The forms of a list are read alike in any case. -/
theorem readItems_alike {bound bound' : List Char} (names : List String) (items : List Datum)
    {text text' : List Char} (same : tokens text' = tokens text)
    (fits : text.length ≤ bound.length + 1) (fits' : text'.length ≤ bound'.length + 1) :
    (readItems bound names items text fits).Alike (readItems bound' names items text' fits') := by
  obtain ⟨t, rest, h⟩ := exists_starts text
  obtain ⟨rest', h', same'⟩ := h.of_tokens same
  cases t with
  | none =>
    cases h with
    | nothing h =>
      cases h' with
      | nothing h' =>
        rw [readItems_end h, readItems_end h']
        exact ⟨rfl, rfl, rfl⟩
  | some t =>
    by_cases close : t = .closing
    · subst close
      cases h with
      | closing h =>
        cases h' with
        | closing h' =>
          rw [readItems_close h, readItems_close h']
          exact ⟨rfl, rfl, same'⟩
    · obtain ⟨c, r, hskip, hc⟩ := h.exists_cons close
      obtain ⟨c', r', hskip', hc'⟩ := h'.exists_cons close
      have shorter := length_lt_of_skipBlanks_eq hskip
      have sameItems : tokens (c' :: r') = tokens (c :: r) := by
        rw [← hskip, ← hskip', tokens_skipBlanks, tokens_skipBlanks, same]
      by_cases unreadable : ∃ u, (c :: r).dropWhile isLead = ')' :: u
      · obtain ⟨u, hu⟩ := unreadable
        obtain ⟨count, close⟩ := lead_of_tokens sameItems
        obtain ⟨u', hu'⟩ := close hu
        rw [readItems_unreadable names items hskip hc hu,
          readItems_unreadable names items hskip' hc' hu', count]
        exact ⟨rfl, rfl, rfl⟩
      · have first := readForm_alike names sameItems (not_exists.1 unreadable)
          (Nat.le_refl (r.length + 1)) (Nat.le_refl (r'.length + 1))
        rw [readItems_item hskip hc, readItems_item hskip' hc']
        generalize readForm r names (c :: r) _ = x at first ⊢
        generalize readForm r' names (c' :: r') _ = x' at first ⊢
        cases x with
        | form names d rest short =>
          cases x' with
          | form names' d' rest' short' =>
            obtain ⟨rfl, rfl, sameRest⟩ := first
            have shorter' : rest.length < text.length := Nat.lt_of_le_of_lt short shorter
            simp only
            split
            · exact ⟨rfl, rfl, rfl⟩
            · exact readItems_alike names' (d' :: items) sameRest _ _
          | overlong _ _ => cases first
        | overlong names digits =>
          cases x' with
          | form _ _ _ _ => cases first
          | overlong names' digits' => exact first
termination_by 2 * text.length + 1
decreasing_by
  · rw [← hskip]
    have := length_skipBlanks_le text
    omega
  · omega

end

end alike

end PocketLisp
