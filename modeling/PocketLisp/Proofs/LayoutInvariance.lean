import PocketLisp.Proofs.EnteredNames
import PocketLisp.Proofs.PrintedForms

/-!
# Layout never changes meaning

Texts with the same tokens are read to the same datum with the same names, in whatever tables that
have the same names before, and what is left of them has the same tokens. Only the refusal of a
closing parenthesis echoes the text as it is laid out.
-/
namespace PocketLisp

/-- The data that two texts are read to: they are the same, or they refuse the closing parenthesis
behind the quotes at the front, of which there may be none. A refusal ends with the text from that
parenthesis on. -/
inductive SameButEcho (text text' : List Char) : Datum → Datum → Prop where
  | same (d : Datum) : SameButEcho text text' d d
  | refused {rest rest' : List Char} (h : text.dropWhile isLead = ')' :: rest)
      (h' : text'.dropWhile isLead = ')' :: rest') : SameButEcho text text'
      (quotes (leadingQuotes text)
        (.atom (.error ("invalid syntax: " ++ String.ofList (')' :: rest)))))
      (quotes (leadingQuotes text)
        (.atom (.error ("invalid syntax: " ++ String.ofList (')' :: rest')))))

/-- The first forms of texts with the same tokens, which enter the same names. -/
theorem readForm_sameButEcho {text text' : List Char} (short : NoOverlong text)
    (same : tokens text' = tokens text) : ∃ names d d' rest rest' fits fits',
      readForm text [] text (Nat.le_succ _) = .form names d rest fits ∧
      readForm text' [] text' (Nat.le_succ _) = .form names d' rest' fits' ∧
      SameButEcho text text' d d' ∧ tokens rest' = tokens rest := by
  by_cases unreadable : ∃ rest, text.dropWhile isLead = ')' :: rest
  · obtain ⟨rest, h⟩ := unreadable
    obtain ⟨count, closing⟩ := lead_of_tokens same
    obtain ⟨rest', h'⟩ := closing h
    have refusal' := readForm_unreadable [] h' (Nat.le_succ text'.length)
    rw [count] at refusal'
    exact ⟨_, _, _, [], [], _, _, readForm_unreadable [] h (Nat.le_succ _), refusal',
      .refused h h', rfl⟩
  · have alike := readForm_alike [] same (not_exists.1 unreadable) (Nat.le_succ text.length)
      (Nat.le_succ text'.length)
    have follows := readForm_follows [] (Nat.le_succ text.length)
    generalize readForm text [] text (Nat.le_succ _) = r at alike follows ⊢
    generalize readForm text' [] text' (Nat.le_succ _) = r' at alike ⊢
    cases r with
    | overlong names digits =>
      obtain ⟨ds, token, stops, -⟩ := follows
      exact absurd stops short.not_stops
    | form names d rest fits =>
      cases r' with
      | overlong _ _ => cases alike
      | form names' d' rest' fits' =>
        obtain ⟨rfl, rfl, left⟩ := alike
        exact ⟨names', d', d', rest, rest', fits, fits', rfl, rfl, .same d', left⟩

/-- Texts with the same tokens, read in tables with the same names, have values that stand for the
same datum with the symbols of these tables, unless the texts are refused for a closing parenthesis;
the rests have the same tokens, the tables have the same names afterwards, and they keep the symbols
that they had. In one store the values are one and the same, and where the second text is read after
the first one, its value is equal to the first one with the same symbols. -/
theorem layout_keeps_meaning {table table' : Nat} {text text' : List Char} {s s' : Store}
    (hT : table < s.tables.size) (hT' : table' < s'.tables.size)
    (names : ∀ name, s'.isInterned table' name = s.isInterned table name)
    (short : NoOverlong text) (same : tokens text' = tokens text) :
    ∃ v rest s₁ d v' rest' s₁' d',
      read table text s = .ok (v, rest) s₁ ∧ read table' text' s' = .ok (v', rest') s₁' ∧
      Denotes s₁ table v d ∧ Denotes s₁' table' v' d' ∧ SameButEcho text text' d d' ∧
      tokens rest' = tokens rest ∧
      (∀ name, s₁'.isInterned table' name = s₁.isInterned table name) ∧
      (∀ name sym, s.findSymbol? table name = some sym → s₁.findSymbol? table name = some sym) ∧
      (∀ name sym, s'.findSymbol? table' name = some sym →
        s₁'.findSymbol? table' name = some sym) ∧
      (s' = s → table' = table → d' = d → v' = v ∧ s₁' = s₁) ∧
      ∃ w s₂, read table text' s₁ = .ok (w, rest') s₂ ∧ s₂.tables = s₁.tables ∧
        Denotes s₂ table v d ∧ Denotes s₂ table w d' ∧ (d' = d → s₂.equal v w = true) := by
  obtain ⟨names₁, d, d', rest, rest', fits, fits', form, form', echo, left⟩ :=
    readForm_sameButEcho short same
  obtain ⟨v, s₁, hread, adds, unfolds⟩ := read_of_form hT form
  obtain ⟨v', s₁', hread', adds', unfolds'⟩ := read_of_form hT' form'
  have entered : namesRead text' = namesRead text := by
    rw [namesRead, namesRead, form, form']
    rfl
  have hT₁ : table < s₁.tables.size := by rw [adds.tableCount]; exact hT
  obtain ⟨w, s₂, after, adds₂, unfolds₂⟩ := read_of_form hT₁ form'
  refine ⟨v, rest, s₁, d, v', rest', s₁', d', hread, hread', unfolds.denotes, unfolds'.denotes,
    echo, left, fun name => ?_, adds.symbols table, adds'.symbols table', ?_, w, s₂, after, ?_⟩
  · rw [Bool.eq_iff_iff, isInterned_read hT' (.inl ⟨_, hread'⟩), entered, names,
      isInterned_read hT (.inl ⟨_, hread⟩)]
  · rintro rfl rfl rfl
    cases (read_of_readForm form s').symm.trans hread
    cases (read_of_readForm form' s').symm.trans hread'
    exact ⟨rfl, rfl⟩
  · have first : Denotes s₂ table v d := unfolds.denotes.grow adds₂.toExtends
    refine ⟨?_, first, unfolds₂.denotes, ?_⟩
    · refine tables_read after fun name hname => ?_
      rw [entered] at hname
      exact (gains_read hT (.inl ⟨_, hread⟩)).2 name hname
    · rintro rfl
      exact first.equal unfolds₂.denotes

/-- A list with a quoted symbol in front of two words, in two layouts, read in two tables of one
store. -/
theorem layout_keeps_meaning_list : ∃ (s : Store) (v v' : Value) (s₁ s₁' : Store)
    (rest' : List Char), 0 < s.tables.size ∧ 1 < s.tables.size ∧
    (∀ name, s.isInterned 1 name = s.isInterned 0 name) ∧ NoOverlong "(a 'b)c d".toList ∧
    tokens " ( a\n'  b ) c\td ".toList = tokens "(a 'b)c d".toList ∧
    read 0 "(a 'b)c d".toList s = .ok (v, "c d".toList) s₁ ∧
    read 1 " ( a\n'  b ) c\td ".toList s = .ok (v', rest') s₁' ∧
    tokens rest' = [.word ['c'], .word ['d']] ∧
    Denotes s₁ 0 v (.ofList .nil [.atom (.sym "a"), quoted (.atom (.sym "b"))]) ∧
    Denotes s₁' 1 v' (.ofList .nil [.atom (.sym "a"), quoted (.atom (.sym "b"))]) ∧
    ∀ name, s₁'.isInterned 1 name = s₁.isInterned 0 name := by
  have form : (match readForm "(a 'b)c d".toList [] "(a 'b)c d".toList (Nat.le_succ _) with
      | .form _ d rest _ => some (d, rest)
      | .overlong _ _ => none) = some (.ofList .nil [.atom (.sym "a"), quoted (.atom (.sym "b"))],
        "c d".toList) := by decide +kernel
  let s := Store.empty.newTable.2.newTable.2
  have hT : 0 < s.tables.size := by decide
  have hT' : 1 < s.tables.size := by decide
  have names : ∀ name, s.isInterned 1 name = s.isInterned 0 name := fun _ => rfl
  have short : NoOverlong "(a 'b)c d".toList := noOverlong_of_length_le (by decide)
  have same : tokens " ( a\n'  b ) c\td ".toList = tokens "(a 'b)c d".toList := by decide
  obtain ⟨v, rest, s₁, d, v', rest', s₁', d', hread, hread', denotes, denotes', echo, left, names',
    -⟩ := layout_keeps_meaning hT hT' names short same
  obtain ⟨-, _, e, _, hform, unfolds, -⟩ := read_spec hT hread
  rw [hform] at form
  cases form
  cases denotes.unique unfolds.denotes
  -- The datum of a list is no refusal.
  cases echo
  exact ⟨s, v, v', s₁, s₁', rest', hT, hT', names, short, same, hread, hread', left, denotes,
    denotes', names'⟩

end PocketLisp
