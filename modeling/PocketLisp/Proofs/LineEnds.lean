import PocketLisp.TextLines
import PocketLisp.Proofs.TokenLayout

/-!
# Lines and their ends

A line of a file is read with its line feed, a line of an input without it. The line feed matters
only where a line is refused with the text that it goes on with. A line that holds nothing but white
space in the wide sense is read to an atom, if it is read.
-/
namespace PocketLisp

/-- A text that holds no line end, so that it may be a line. -/
def Unbroken (line : String) : Prop := ∀ c ∈ line.toList, c ≠ '\n' ∧ c ≠ '\r'

instance (line : String) : Decidable (Unbroken line) :=
  List.decidableBAll (fun c => c ≠ '\n' ∧ c ≠ '\r') line.toList

def fileText (lines : List String) : String := String.join (lines.map (· ++ "\n"))

theorem unifyLineEnds_eq {text : List Char} (h : '\r' ∉ text) : unifyLineEnds text = text := by
  induction text with
  | nil => rfl
  | cons c text ih =>
    have hc : c ≠ '\r' := fun e => h (e ▸ List.mem_cons_self)
    rw [unifyLineEnds.eq_4 c text (fun _ e _ => hc e) hc]
    rw [ih fun hmem => h (List.mem_cons_of_mem _ hmem)]

theorem splitLines_cons (c : Char) (text : List Char) :
    splitLines (c :: text) = consLine c (splitLines text) := rfl

theorem splitLines_line {line : List Char} (h : '\n' ∉ line) (rest : List Char) :
    splitLines (line ++ '\n' :: rest) = (line ++ ['\n']) :: splitLines rest := by
  induction line with
  | nil =>
    rw [List.nil_append, splitLines_cons]
    cases splitLines rest <;> rfl
  | cons c line ih =>
    have hc : c ≠ '\n' := fun e => h (e ▸ List.mem_cons_self)
    rw [List.cons_append, splitLines_cons, ih fun hmem => h (List.mem_cons_of_mem _ hmem),
      consLine, if_neg hc, List.cons_append]

theorem toList_fileText_cons (line : String) (lines : List String) :
    (fileText (line :: lines)).toList = line.toList ++ '\n' :: (fileText lines).toList := by
  simp [fileText, String.toList_join]

theorem not_mem_fileText {lines : List String} (h : ∀ line ∈ lines, Unbroken line) :
    '\r' ∉ (fileText lines).toList := by
  induction lines with
  | nil => simp [fileText]
  | cons line lines ih =>
    obtain ⟨first, others⟩ := List.forall_mem_cons.1 h
    rw [toList_fileText_cons, List.mem_append, List.mem_cons]
    rintro (hmem | e | hmem)
    · exact (first _ hmem).2 rfl
    · cases e
    · exact ih others hmem

theorem splitLines_fileText {lines : List String} (h : ∀ line ∈ lines, Unbroken line) :
    splitLines (fileText lines).toList = lines.map fun line => line.toList ++ ['\n'] := by
  induction lines with
  | nil => simp [fileText, splitLines]
  | cons line lines ih =>
    obtain ⟨first, others⟩ := List.forall_mem_cons.1 h
    have hline : '\n' ∉ line.toList := fun hmem => (first _ hmem).1 rfl
    rw [toList_fileText_cons, splitLines_line hline, ih others, List.map_cons]

/-- The lines of a file are those that it was made of, each with its line feed. -/
theorem fileLines_fileText {lines : List String} (h : ∀ line ∈ lines, Unbroken line) :
    fileLines (fileText lines) = lines.map (· ++ "\n") := by
  rw [fileLines, unifyLineEnds_eq (not_mem_fileText h), splitLines_fileText h, List.map_map]
  refine List.map_congr_left fun line _ => ?_
  rw [Function.comp_apply, ← String.toList_inj, String.toList_ofList, String.toList_append]
  rfl

theorem toList_append_lineFeed (line : String) : (line ++ "\n").toList = line.toList ++ ['\n'] := by
  rw [String.toList_append]
  rfl

theorem isBlankText_append_lineFeed (line : String) :
    isBlankText (line ++ "\n") = isBlankText line := by
  have wide : isWideBlank '\n' = true := by decide
  rw [isBlankText, toList_append_lineFeed, List.all_append, List.all_cons, wide]
  simp [isBlankText]

theorem isWideBlank_ne {c : Char} (h : isWideBlank c = true) :
    c ≠ '(' ∧ c ≠ ')' ∧ c ≠ '\'' ∧ c.isDigit = false := by
  refine ⟨?_, ?_, ?_, ?_⟩
  · rintro rfl
    cases h
  · rintro rfl
    cases h
  · rintro rfl
    cases h
  · rw [Bool.eq_false_iff]
    intro digit
    simp only [Char.isDigit, Bool.and_eq_true, decide_eq_true_eq] at digit
    have low : 48 ≤ c.toNat := digit.1
    have high : c.toNat ≤ 57 := digit.2
    simp only [isWideBlank, Bool.or_eq_true, Bool.and_eq_true, decide_eq_true_eq] at h
    omega

theorem unsigned_sublist (token : List Char) : (unsigned token).Sublist token := by
  unfold unsigned
  split
  · exact List.sublist_cons_self _ _
  · exact List.sublist_cons_self _ _
  · exact .refl _

theorem not_isNumeral {token : List Char} (h : ∀ c ∈ token, c.isDigit = false) :
    isNumeral token = false := by
  rw [isNumeral]
  cases hu : unsigned token with
  | nil => rfl
  | cons c rest =>
    have hmem : c ∈ token := (unsigned_sublist token).subset (hu ▸ List.mem_cons_self)
    rw [List.all_cons, h c hmem]
    simp

theorem mem_of_skipBlanks {text rest : List Char} (h : skipBlanks text = rest) :
    ∀ c ∈ rest, c ∈ text := by
  rintro c hc
  rw [← h] at hc
  exact (List.dropWhile_sublist isBlank).subset hc

/-- White space is read to an atom: that of a symbol, or the error of an empty text. -/
theorem readForm_blank {bound text : List Char} {names : List String}
    (h : ∀ c ∈ text, isWideBlank c = true) (fits : text.length ≤ bound.length + 1) :
    ∃ names' a rest short, readForm bound names text fits = .form names' (.atom a) rest short := by
  obtain ⟨t, rest, starts⟩ := exists_starts text
  cases starts with
  | nothing hskip => exact ⟨_, _, _, _, readForm_end hskip fits⟩
  | opening hskip =>
    exact absurd rfl (isWideBlank_ne (h _ (mem_of_skipBlanks hskip _ List.mem_cons_self))).1
  | closing hskip =>
    exact absurd rfl (isWideBlank_ne (h _ (mem_of_skipBlanks hskip _ List.mem_cons_self))).2.1
  | quote hskip =>
    exact absurd rfl (isWideBlank_ne (h _ (mem_of_skipBlanks hskip _ List.mem_cons_self))).2.2.1
  | @word c r _ _ hc hskip _ _ =>
    obtain ⟨short, read⟩ := readForm_token names hskip hc fits
    have noDigit : ∀ d ∈ (c :: r).takeWhile (fun c => !isDelimiter c), d.isDigit = false := by
      intro d hd
      have hmem := mem_of_skipBlanks hskip d ((List.takeWhile_sublist _).subset hd)
      exact (isWideBlank_ne (h d hmem)).2.2.2
    rw [read, readToken, classify, not_isNumeral noDigit]
    exact ⟨_, _, _, _, rfl⟩

theorem tokens_lineFeed (line : String) : tokens (line ++ "\n").toList = tokens line.toList := by
  rw [toList_append_lineFeed, tokens_concat_blank (by decide)]

/-- A line is read with its line feed as it is without it, unless it is refused for a closing
parenthesis. -/
theorem readForm_lineFeed {line : String}
    (readable : ∀ rest, line.toList.dropWhile isLead ≠ ')' :: rest) :
    (readForm line.toList [] line.toList (Nat.le_succ _)).Alike
      (readForm (line ++ "\n").toList [] (line ++ "\n").toList (Nat.le_succ _)) :=
  readForm_alike [] (tokens_lineFeed line) readable _ _

theorem dropWhile_isLead_lineFeed {line : String} {rest : List Char}
    (h : line.toList.dropWhile isLead = ')' :: rest) :
    (line ++ "\n").toList.dropWhile isLead = ')' :: (rest ++ ['\n']) := by
  rw [toList_append_lineFeed, List.dropWhile_append, h]
  rfl

theorem leadingQuotes_lineFeed (line : String) :
    leadingQuotes (line ++ "\n").toList = leadingQuotes line.toList :=
  (@lead_of_tokens line.toList _ [] (tokens_lineFeed line)).1

end PocketLisp
