import PocketLisp.Blanks
import PocketLisp.TokenClasses

/-!
# Reading forms

One form is read off the front of a text. A failure is an error datum with nothing left of the
text, except that a quote in front of it wraps it like any other form. Reading also collects the
names that it enters into the symbol table, in the order of entering, latest first; the name
`quote` is entered after the form that it quotes. What is left of the text comes with a bound on
its length, which is why reading ends.
-/
namespace PocketLisp

/-- The outcome of reading: a datum and what is left of the text, no longer than `bound`, or a
numeral with too many digits. Both come with the names entered so far, latest first. -/
inductive Reading (bound : List Char) where
  | form (names : List String) (datum : Datum) (rest : List Char)
    (short : rest.length ≤ bound.length)
  | overlong (names : List String) (digits : Nat)

/-- A failed reading leaves nothing of the text. -/
def Reading.failure {bound : List Char} (names : List String) (message : String) :
    Reading bound :=
  .form names (.atom (.error message)) [] (Nat.zero_le _)

/-- Whether a datum is itself an error, not merely one that holds an error. -/
def isErrorDatum : Datum → Bool
  | .atom (.error _) => true
  | _ => false

def quoted (d : Datum) : Datum :=
  .cons (.atom (.sym "quote")) (.cons d (.atom .nil))

/-- Reads a token, which ends before the first delimiter. The token may be empty. -/
def readToken {bound : List Char} (names : List String) (text : List Char)
    (short : (text.dropWhile (fun c => !isDelimiter c)).length ≤ bound.length) : Reading bound :=
  match classify (text.takeWhile (fun c => !isDelimiter c)) with
  | .ok a => .form (a.names ++ names) (.atom a) (text.dropWhile (fun c => !isDelimiter c)) short
  | .error digits => .overlong names digits

private theorem length_lt_of_skipBlanks {text rest : List Char} {c : Char}
    (h : skipBlanks text = c :: rest) : rest.length < text.length := by
  have := length_skipBlanks_le text
  rw [h, List.length_cons] at this
  exact this

private theorem isBlank_head_of_skipBlanks {text rest : List Char} {c : Char}
    (h : skipBlanks text = c :: rest) : isBlank c = false := by
  have := List.head?_dropWhile_not isBlank text
  rw [show text.dropWhile isBlank = c :: rest from h] at this
  simpa using this

private theorem length_dropWhile_le (p : Char → Bool) (text : List Char) :
    (text.dropWhile p).length ≤ text.length :=
  (List.dropWhile_sublist p).length_le

mutual

def readForm (bound : List Char) (names : List String) (text : List Char)
    (fits : text.length ≤ bound.length + 1) : Reading bound :=
  match h : skipBlanks text with
  | [] => .failure names "empty input"
  | c :: rest =>
    have shorter : rest.length < text.length := length_lt_of_skipBlanks h
    if close : c = ')' then .failure names ("invalid syntax: " ++ String.ofList (c :: rest))
    else if list : c = '(' then readItems bound names [] rest (by omega)
    else if quote : c = '\'' then
      match readForm bound names rest (by omega) with
      | .form names d rest short => .form ("quote" :: names) (quoted d) rest short
      | .overlong names digits => .overlong names digits
    else readToken names (c :: rest) (by
      have token : isDelimiter c = false := by
        simp [isDelimiter, isBlank_head_of_skipBlanks h, close, list, quote]
      have := length_dropWhile_le (fun c => !isDelimiter c) rest
      simp only [List.dropWhile_cons, token, Bool.not_false, ↓reduceIte]
      omega)
termination_by 2 * text.length

/-- Reads the forms of a list up to its closing parenthesis, with the forms read so far in
`items`, latest first. The first error ends the list and is its outcome. -/
def readItems (bound : List Char) (names : List String) (items : List Datum) (text : List Char)
    (fits : text.length ≤ bound.length + 1) : Reading bound :=
  match h : skipBlanks text with
  | [] => .failure names "unfinished parenthesis"
  | c :: rest =>
    have shorter : rest.length < text.length := length_lt_of_skipBlanks h
    if c = ')' then .form names (.ofList .nil items.reverse) rest (by omega)
    else match readForm rest names (c :: rest) (by simp) with
      | .form names d rest' short =>
        if isErrorDatum d then .form names d [] (Nat.zero_le _)
        else readItems bound names (d :: items) rest' (by omega)
      | .overlong names digits => .overlong names digits
termination_by 2 * text.length + 1
decreasing_by
  · simp only [List.length_cons]
    omega
  · omega

end

end PocketLisp
