import PocketLisp.FormReader
import Mathlib.Data.List.Basic

/-!
# The grammar of forms

What a text reads as, without regard to how it is read. A form is a token, a list of forms in
parentheses, or a quoted form, each after any number of blanks. A token is followed by a delimiter
or by the end of the text, and so it is a whole run between delimiters.
-/
namespace PocketLisp

/-- What a token stands for: a number if it is a numeral in range, and else the symbol of that
name, where `nil` is the empty list. -/
inductive TokenAtom (token : List Char) : Atom → Prop where
  | num {n : Fixnum} (numeral : isNumeral token = true) (value : numeralValue token = n.val) :
      TokenAtom token (.num n)
  | nil (name : token = "nil".toList) : TokenAtom token .nil
  | sym (name : token ≠ "nil".toList)
      (noNumber : ∀ n : Fixnum, isNumeral token = true → numeralValue token ≠ n.val) :
      TokenAtom token (.sym (String.ofList token))

/-- A text that cannot go on a token: it is empty or starts with a delimiter. -/
def EndsToken (text : List Char) : Prop := ∀ c ∈ text.head?, isDelimiter c = true

mutual

/-- `Reads meaning text d rest`: in front of `rest`, the text holds one form, and that is the datum
`d`, where `meaning` tells what tokens stand for. -/
inductive Reads (meaning : List Char → Atom → Prop) : List Char → Datum → List Char → Prop where
  | atom {blanks token rest : List Char} {a : Atom} (blank : ∀ c ∈ blanks, isBlank c = true)
      (nonempty : token ≠ []) (run : ∀ c ∈ token, isDelimiter c = false) (ends : EndsToken rest)
      (atom : meaning token a) : Reads meaning (blanks ++ (token ++ rest)) (.atom a) rest
  | list {blanks text rest : List Char} {ds : List Datum} (blank : ∀ c ∈ blanks, isBlank c = true)
      (items : ReadsItems meaning text ds rest) :
      Reads meaning (blanks ++ '(' :: text) (.ofList .nil ds) rest
  | quote {blanks text rest : List Char} {d : Datum} (blank : ∀ c ∈ blanks, isBlank c = true)
      (form : Reads meaning text d rest) : Reads meaning (blanks ++ '\'' :: text) (quoted d) rest

/-- `ReadsItems meaning text ds rest`: in front of `rest`, the text holds forms and a closing
parenthesis, and the forms are the data `ds`. -/
inductive ReadsItems (meaning : List Char → Atom → Prop) :
    List Char → List Datum → List Char → Prop where
  | close {blanks rest : List Char} (blank : ∀ c ∈ blanks, isBlank c = true) :
      ReadsItems meaning (blanks ++ ')' :: rest) [] rest
  | item {text middle rest : List Char} {d : Datum} {ds : List Datum}
      (first : Reads meaning text d middle) (others : ReadsItems meaning middle ds rest) :
      ReadsItems meaning text (d :: ds) rest

end

/-- The text goes on with `rest` where no token is cut in two. -/
def Resumes (text rest : List Char) : Prop :=
  ∃ before, text = before ++ rest ∧ ((∀ c ∈ before.getLast?, isDelimiter c = true) ∨ EndsToken rest)

/-- A token of a text: a run of other characters between delimiters. -/
def IsToken (text token : List Char) : Prop :=
  ∃ before after, text = before ++ (token ++ after) ∧ token ≠ [] ∧
    (∀ c ∈ token, isDelimiter c = false) ∧ (∀ c ∈ before.getLast?, isDelimiter c = true) ∧
    EndsToken after

/-- No numeral of the text has more digits than are converted. -/
def NoOverlong (text : List Char) : Prop :=
  ∀ token, IsToken text token → isNumeral token = true → (unsigned token).length ≤ digitLimit

/-- A numeral with more digits than are converted. -/
def Overlong (token : List Char) : Prop :=
  isNumeral token = true ∧ digitLimit < (unsigned token).length

def Converts (token : List Char) (a : Atom) : Prop := TokenAtom token a ∧ ¬Overlong token

mutual

/-- `Stops text ds token`: the first form of the text goes as the grammar has it, past the data
`ds`, up to the overlong numeral `token`. -/
inductive Stops : List Char → List Datum → List Char → Prop where
  | token {blanks token rest : List Char} (blank : ∀ c ∈ blanks, isBlank c = true)
      (run : ∀ c ∈ token, isDelimiter c = false) (ends : EndsToken rest)
      (overlong : Overlong token) : Stops (blanks ++ (token ++ rest)) [] token
  | list {blanks text token : List Char} {ds : List Datum} (blank : ∀ c ∈ blanks, isBlank c = true)
      (items : ItemsStop text ds token) : Stops (blanks ++ '(' :: text) ds token
  | quote {blanks text token : List Char} {ds : List Datum}
      (blank : ∀ c ∈ blanks, isBlank c = true) (form : Stops text ds token) :
      Stops (blanks ++ '\'' :: text) ds token

/-- `ItemsStop text ds token`: the forms of a list go as the grammar has it, past the data `ds`, up
to the overlong numeral `token`. -/
inductive ItemsStop : List Char → List Datum → List Char → Prop where
  | here {text token : List Char} {ds : List Datum} (first : Stops text ds token) :
      ItemsStop text ds token
  | later {text middle token : List Char} {d : Datum} {ds : List Datum}
      (first : Reads Converts text d middle) (others : ItemsStop middle ds token) :
      ItemsStop text (d :: ds) token

end

theorem Overlong.ne_nil {token : List Char} (h : Overlong token) : token ≠ [] := by
  rintro rfl
  simp [Overlong, unsigned] at h

theorem not_isDelimiter_of_all {token : List Char}
    (h : token.all (fun c => !isDelimiter c) = true) : ∀ c ∈ token, isDelimiter c = false := by
  simpa using h

theorem isBlank_space : ∀ c ∈ [' '], isBlank c = true := by
  simp [isBlank]

theorem endsToken_cons {c : Char} (hc : isDelimiter c = true) (rest : List Char) :
    EndsToken (c :: rest) := by
  intro d hd
  cases hd
  exact hc

/-- A text that is short enough has no overlong numeral. -/
theorem noOverlong_of_length_le {text : List Char} (h : text.length ≤ digitLimit) :
    NoOverlong text := by
  rintro token ⟨before, after, rfl, -⟩ -
  have hunsigned : (unsigned token).length ≤ token.length := by
    unfold unsigned
    split <;> simp
  simp only [List.length_append] at h
  omega

theorem resumes_of_blanks {blanks text : List Char} (blank : ∀ c ∈ blanks, isBlank c = true) :
    Resumes (blanks ++ text) text :=
  ⟨blanks, rfl, .inl fun c hc => isDelimiter_of_isBlank (blank c (List.mem_of_getLast? hc))⟩

theorem resumes_of_delimiter {before text : List Char} {c : Char} (hc : isDelimiter c = true) :
    Resumes (before ++ c :: text) text := by
  refine ⟨before ++ [c], by simp, .inl fun d hd => ?_⟩
  rw [List.getLast?_concat, Option.mem_some_iff] at hd
  rw [← hd]
  exact hc

theorem Resumes.trans {text middle rest : List Char} (h : Resumes text middle)
    (h' : Resumes middle rest) : Resumes text rest := by
  obtain ⟨before, rfl, hb⟩ := h
  obtain ⟨between, rfl, hm⟩ := h'
  refine ⟨before ++ between, by simp, ?_⟩
  rcases hm with hm | hm
  · by_cases hnil : between = []
    · subst hnil
      simpa using hb
    · rw [List.getLast?_append_of_ne_nil before hnil]
      exact .inl hm
  · exact .inr hm

theorem IsToken.of_resumes {text rest token : List Char} (h : Resumes text rest)
    (ht : IsToken rest token) : IsToken text token := by
  obtain ⟨before, rfl, hb⟩ := h
  obtain ⟨start, after, rfl, nonempty, run, hstart, hafter⟩ := ht
  refine ⟨before ++ start, after, by simp, nonempty, run, ?_, hafter⟩
  by_cases hnil : start = []
  · subst hnil
    rcases hb with hb | hb
    · simpa using hb
    · obtain ⟨c, token, rfl⟩ := List.exists_cons_of_ne_nil nonempty
      have hc := run c (by simp)
      have hd := hb c (by simp)
      rw [hc] at hd
      cases hd
  · rw [List.getLast?_append_of_ne_nil before hnil]
    exact hstart

theorem NoOverlong.of_resumes {text rest : List Char} (h : NoOverlong text)
    (hr : Resumes text rest) : NoOverlong rest :=
  fun token ht => h token (ht.of_resumes hr)

variable {meaning : List Char → Atom → Prop}

mutual

theorem Reads.resumes {text rest : List Char} {d : Datum} : Reads meaning text d rest →
    Resumes text rest
  | @Reads.atom _ blanks token rest a blank nonempty run ends atom =>
    ⟨blanks ++ token, by simp, .inr ends⟩
  | .list blank items => (resumes_of_delimiter (by decide)).trans items.resumes
  | .quote blank form => (resumes_of_delimiter (by decide)).trans form.resumes

theorem ReadsItems.resumes {text rest : List Char} {ds : List Datum} :
    ReadsItems meaning text ds rest → Resumes text rest
  | .close blank => resumes_of_delimiter (by decide)
  | .item first others => first.resumes.trans others.resumes

end

theorem Reads.blanks {blanks text rest : List Char} {d : Datum}
    (blank : ∀ c ∈ blanks, isBlank c = true) (h : Reads meaning text d rest) :
    Reads meaning (blanks ++ text) d rest := by
  cases h with
  | atom blank' nonempty run ends atom =>
    rw [← List.append_assoc]
    exact .atom (List.forall_mem_append.2 ⟨blank, blank'⟩) nonempty run ends atom
  | list blank' items =>
    rw [← List.append_assoc]
    exact .list (List.forall_mem_append.2 ⟨blank, blank'⟩) items
  | quote blank' form =>
    rw [← List.append_assoc]
    exact .quote (List.forall_mem_append.2 ⟨blank, blank'⟩) form

theorem Stops.blanks {blanks text token : List Char} {ds : List Datum}
    (blank : ∀ c ∈ blanks, isBlank c = true) (h : Stops text ds token) :
    Stops (blanks ++ text) ds token := by
  cases h with
  | token blank' run ends overlong =>
    rw [← List.append_assoc]
    exact .token (List.forall_mem_append.2 ⟨blank, blank'⟩) run ends overlong
  | list blank' items =>
    rw [← List.append_assoc]
    exact .list (List.forall_mem_append.2 ⟨blank, blank'⟩) items
  | quote blank' form =>
    rw [← List.append_assoc]
    exact .quote (List.forall_mem_append.2 ⟨blank, blank'⟩) form

mutual

theorem Stops.isToken {text token : List Char} {ds : List Datum} :
    Stops text ds token → IsToken text token ∧ Overlong token
  | @Stops.token blanks token rest blank run ends overlong =>
    ⟨.of_resumes (resumes_of_blanks blank) ⟨[], rest, rfl, overlong.ne_nil, run, by simp, ends⟩,
      overlong⟩
  | .list blank items =>
    ⟨.of_resumes (resumes_of_delimiter (by decide)) items.isToken.1, items.isToken.2⟩
  | .quote blank form =>
    ⟨.of_resumes (resumes_of_delimiter (by decide)) form.isToken.1, form.isToken.2⟩

theorem ItemsStop.isToken {text token : List Char} {ds : List Datum} :
    ItemsStop text ds token → IsToken text token ∧ Overlong token
  | .here first => first.isToken
  | .later first others => ⟨.of_resumes first.resumes others.isToken.1, others.isToken.2⟩

end

/-- The first form of a text without overlong numerals is scanned to its end. -/
theorem NoOverlong.not_stops {text token : List Char} {ds : List Datum} (h : NoOverlong text) :
    ¬Stops text ds token := by
  intro stops
  obtain ⟨isToken, numeral, long⟩ := stops.isToken
  exact Nat.not_lt.2 (h token isToken numeral) long

mutual

/-- The meaning of tokens may be another one if it agrees on the tokens of the text. -/
theorem Reads.imp {meaning' : List Char → Atom → Prop} {text rest : List Char} {d : Datum} :
    Reads meaning text d rest →
    (∀ token a, IsToken text token → meaning token a → meaning' token a) →
    Reads meaning' text d rest
  | .atom blank nonempty run ends atom, h => by
    have token := IsToken.of_resumes (resumes_of_blanks blank)
      ⟨[], _, rfl, nonempty, run, by simp, ends⟩
    exact .atom blank nonempty run ends (h _ _ token atom)
  | .list blank items, h => by
    refine .list blank (items.imp fun token a ht => h token a (ht.of_resumes ?_))
    exact resumes_of_delimiter (by decide)
  | .quote blank form, h => by
    refine .quote blank (form.imp fun token a ht => h token a (ht.of_resumes ?_))
    exact resumes_of_delimiter (by decide)

theorem ReadsItems.imp {meaning' : List Char → Atom → Prop} {text rest : List Char}
    {ds : List Datum} : ReadsItems meaning text ds rest →
    (∀ token a, IsToken text token → meaning token a → meaning' token a) →
    ReadsItems meaning' text ds rest
  | .close blank, _ => .close blank
  | .item first others, h =>
    .item (first.imp h) (others.imp fun token a ht => h token a (ht.of_resumes first.resumes))

end

end PocketLisp
