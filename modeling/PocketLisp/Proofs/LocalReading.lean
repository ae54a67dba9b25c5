import PocketLisp.Proofs.LineFaults
import PocketLisp.Proofs.PrintedForms

/-!
# Reading is local to the form

What a form is read to, and the names that are entered for it, depend on the part of the text that
holds the form, and on nothing after it. A token only ends at a delimiter or at the end of the text,
and so a form that ends in a token may be followed by those only. A form that ends in a closing
parenthesis may be followed by anything.
-/
namespace PocketLisp

/-- The text `p` stays apart from the rest that follows it: no token goes on from one into the
other. -/
def Parts (p rest : List Char) : Prop := EndsToken rest ∨ p.getLast? = some ')'

/-- The text `p` holds the datum, whatever follows from which it stays apart: it is read to that
datum, with the same names entered, and what follows is left. -/
structure HoldsForm (p : List Char) (d : Datum) : Prop where
  starts : ∃ c u, skipBlanks p = c :: u ∧ c ≠ ')'
  run : ∀ names, ∃ names', ∀ (bound rest text : List Char), Parts p rest →
    skipBlanks text = skipBlanks (p ++ rest) → ∀ fits : text.length ≤ bound.length + 1,
      ∃ short, readForm bound names text fits = .form names' d rest short

/-- The text `p` holds the last items of a list and its closing parenthesis, whatever follows. -/
structure HoldsItems (p : List Char) (ds : List Datum) : Prop where
  ends : p.getLast? = some ')'
  run : ∀ names, ∃ names', ∀ (bound rest : List Char) (items : List Datum)
    (fits : (p ++ rest).length ≤ bound.length + 1), ∃ short,
      readItems bound names items (p ++ rest) fits =
        .form names' (.ofList .nil (items.reverse ++ ds)) rest short

theorem HoldsForm.nonempty {p : List Char} {d : Datum} (h : HoldsForm p d) : p ≠ [] := by
  rintro rfl
  obtain ⟨c, u, start, -⟩ := h.starts
  cases start

theorem HoldsItems.nonempty {p : List Char} {ds : List Datum} (h : HoldsItems p ds) : p ≠ [] := by
  rintro rfl
  cases h.ends

section parts

variable {p q rest : List Char}

theorem parts_of_suffix (hq : q ≠ []) : Parts (p ++ q) rest ↔ Parts q rest := by
  rw [Parts, Parts, List.getLast?_append_of_ne_nil p hq]

/-- Where a text with something in it follows, it does not matter what is after that. -/
theorem Parts.append {rest' : List Char} (hq : q ≠ []) (h : Parts p (q ++ rest)) :
    Parts p (q ++ rest') := by
  obtain ⟨c, q, rfl⟩ := List.exists_cons_of_ne_nil hq
  exact h

theorem skipBlanks_append {c : Char} {u : List Char} (h : skipBlanks p = c :: u)
    (rest : List Char) : skipBlanks (p ++ rest) = c :: (u ++ rest) := by
  obtain ⟨blanks, rfl, blank⟩ := exists_blanks_of_skipBlanks h
  rw [List.append_assoc, List.cons_append]
  exact skipBlanks_append_cons blank (not_isBlank_of_skipBlanks h)

end parts

section rules

variable {blanks p q rest : List Char} {d : Datum} {ds : List Datum}

theorem holds_token {token : List Char} {a : Atom} (blank : ∀ c ∈ blanks, isBlank c = true)
    (nonempty : token ≠ []) (run : ∀ c ∈ token, isDelimiter c = false)
    (atom : Classified token a) : HoldsForm (blanks ++ token) (.atom a) := by
  obtain ⟨c, u, rfl⟩ := List.exists_cons_of_ne_nil nonempty
  have hc := run c (by simp)
  have skip : skipBlanks (blanks ++ c :: u) = c :: u :=
    skipBlanks_append_cons blank (not_isBlank_of_not_isDelimiter hc)
  -- A token has no parenthesis at its end, and so it needs a delimiter after it.
  have noClose : (blanks ++ c :: u).getLast? ≠ some ')' := by
    rw [List.getLast?_append_of_ne_nil blanks nonempty]
    intro last
    exact absurd (run _ (List.mem_of_getLast? last)) (by decide)
  refine ⟨⟨c, u, skip, fun e => ?_⟩, fun names => ⟨a.names ++ names, ?_⟩⟩
  · rw [e] at hc
    cases hc
  · intro bound rest text parts same fits
    obtain ⟨htake, hdrop⟩ := takeWhile_token run (parts.resolve_right noClose)
    have hskip := same.trans (skipBlanks_append skip rest)
    obtain ⟨short, hread⟩ := readForm_token names hskip hc fits
    obtain ⟨short', htoken⟩ := readToken_eq names short htake hdrop atom
    exact ⟨short', hread.trans htoken⟩

theorem HoldsItems.holds (h : HoldsItems p ds) (blank : ∀ c ∈ blanks, isBlank c = true) :
    HoldsForm (blanks ++ '(' :: p) (.ofList .nil ds) := by
  have skip : skipBlanks (blanks ++ '(' :: p) = '(' :: p :=
    skipBlanks_append_cons blank (by decide)
  refine ⟨⟨'(', p, skip, by decide⟩, fun names => ?_⟩
  obtain ⟨names', run⟩ := h.run names
  refine ⟨names', fun bound rest text _ same fits => ?_⟩
  have hskip := same.trans (skipBlanks_append skip rest)
  obtain ⟨short, hread⟩ := run bound rest []
    (Nat.le_trans (Nat.le_of_lt (length_lt_of_skipBlanks_eq hskip)) fits)
  exact ⟨short, (readForm_open hskip fits).trans hread⟩

theorem HoldsForm.quote (h : HoldsForm p d) (blank : ∀ c ∈ blanks, isBlank c = true) :
    HoldsForm (blanks ++ '\'' :: p) (quoted d) := by
  have skip : skipBlanks (blanks ++ '\'' :: p) = '\'' :: p :=
    skipBlanks_append_cons blank (by decide)
  refine ⟨⟨'\'', p, skip, by decide⟩, fun names => ?_⟩
  obtain ⟨names', run⟩ := h.run names
  refine ⟨"quote" :: names', fun bound rest text parts same fits => ?_⟩
  have hskip := same.trans (skipBlanks_append skip rest)
  rw [List.append_cons] at parts
  obtain ⟨short, hread⟩ := run bound rest (p ++ rest) ((parts_of_suffix h.nonempty).1 parts) rfl
    (Nat.le_trans (Nat.le_of_lt (length_lt_of_skipBlanks_eq hskip)) fits)
  refine ⟨short, ?_⟩
  rw [readForm_quote hskip fits, hread]

theorem holdsItems_close (blank : ∀ c ∈ blanks, isBlank c = true) :
    HoldsItems (blanks ++ [')']) [] := by
  refine ⟨List.getLast?_concat, fun names => ⟨names, fun bound rest items fits => ?_⟩⟩
  have hskip : skipBlanks (blanks ++ [')'] ++ rest) = ')' :: rest := by
    rw [List.append_assoc]
    exact skipBlanks_append_cons blank (by decide)
  rw [List.append_nil]
  exact ⟨_, readItems_close hskip fits⟩

theorem HoldsItems.item (h : HoldsItems q ds) (first : HoldsForm p d)
    (noError : isErrorDatum d = false) (parts : ∀ rest, Parts p (q ++ rest)) :
    HoldsItems (p ++ q) (d :: ds) := by
  refine ⟨by rw [List.getLast?_append_of_ne_nil p h.nonempty, h.ends], fun names => ?_⟩
  obtain ⟨c, u, start, close⟩ := first.starts
  obtain ⟨names', run⟩ := first.run names
  obtain ⟨names'', others⟩ := h.run names'
  refine ⟨names'', fun bound rest items fits => ?_⟩
  have hskip : skipBlanks (p ++ q ++ rest) = c :: (u ++ (q ++ rest)) := by
    rw [List.append_assoc]
    exact skipBlanks_append start _
  have same : skipBlanks (c :: (u ++ (q ++ rest))) = skipBlanks (p ++ (q ++ rest)) := by
    rw [← List.append_assoc p, hskip]
    exact skipBlanks_append_cons (List.forall_mem_nil _) (not_isBlank_of_skipBlanks start)
  obtain ⟨short, hread⟩ := run _ (q ++ rest) _ (parts rest) same (Nat.le_refl _)
  obtain ⟨short', hitems⟩ := others bound rest (d :: items) (Nat.le_trans short
    (Nat.le_trans (Nat.le_of_lt (length_lt_of_skipBlanks_eq hskip)) fits))
  refine ⟨short', ?_⟩
  rw [readItems_item hskip close fits, hread]
  simp only [noError]
  refine hitems.trans ?_
  rw [List.reverse_cons, List.append_assoc, List.singleton_append]

end rules

mutual

/-- The part of a text that holds its first form. -/
theorem Reads.exists_holds {text rest : List Char} {d : Datum} : Reads Classified text d rest →
    ∃ p, text = p ++ rest ∧ Parts p rest ∧ HoldsForm p d
  | @Reads.atom _ blanks token rest a blank nonempty run ends atom =>
    ⟨blanks ++ token, by rw [List.append_assoc], .inl ends,
      holds_token blank nonempty run atom⟩
  | @Reads.list _ blanks text rest ds blank items => by
    obtain ⟨p, rfl, holds⟩ := items.exists_holdsItems
    refine ⟨blanks ++ '(' :: p, by simp, .inr ?_, holds.holds blank⟩
    rw [List.append_cons, List.getLast?_append_of_ne_nil _ holds.nonempty, holds.ends]
  | @Reads.quote _ blanks text rest d blank form => by
    obtain ⟨p, rfl, parts, holds⟩ := form.exists_holds
    refine ⟨blanks ++ '\'' :: p, by simp, ?_, holds.quote blank⟩
    rw [List.append_cons, parts_of_suffix holds.nonempty]
    exact parts

theorem ReadsItems.exists_holdsItems {text rest : List Char} {ds : List Datum} :
    ReadsItems Classified text ds rest → ∃ p, text = p ++ rest ∧ HoldsItems p ds
  | @ReadsItems.close _ blanks rest blank =>
    ⟨blanks ++ [')'], by simp, holdsItems_close blank⟩
  | @ReadsItems.item _ text middle rest d ds first others => by
    obtain ⟨p, htext, parts, holds⟩ := first.exists_holds
    obtain ⟨q, rfl, holdsItems⟩ := others.exists_holdsItems
    subst htext
    exact ⟨p ++ q, by simp, holdsItems.item holds first.starts.1 fun _ =>
      parts.append holdsItems.nonempty⟩

end

/-- The answer to a line is the value of what is read off it, written. -/
theorem Engine.rep_of_read {e : Engine} {env : Env} {line : String} {form : Value}
    {rest : List Char} {s s' : Store} (h : read env.table line.toList s = .ok (form, rest) s') :
    e.rep env line s = (e.eval form env >>= fun value => Run.look (·.print value)) s' := by
  simp only [Engine.rep, Engine.transcribe, bind_assoc]
  rw [Run.bind_apply_of_ok h]
  rfl

/-- Reading is local to the form: what has been read without errors is held by a part of the text,
which may be followed by anything that stays apart from it. It is then read to the same value in the
same store, with what follows left, and to an equal value with the same symbols in any other store
in which the first value stands for what has been read. In any store at all both texts are read
alike, and the answer to a line is that to its first form alone. -/
theorem read_local {s s' : Store} {table : Nat} {text rest : List Char} {v : Value} {d : Datum}
    (hT : table < s.tables.size) (h : read table text s = .ok (v, rest) s')
    (denotes : Denotes s' table v d) (errorFree : ErrorFree d) :
    ∃ p, p ≠ [] ∧ text = p ++ rest ∧ ∀ rest', Parts p rest' →
      read table (p ++ rest') s = .ok (v, rest') s' ∧
      (∀ later, table < later.tables.size → Denotes later table v d → ∃ w s'',
        read table (p ++ rest') later = .ok (w, rest') s'' ∧ Denotes s'' table w d ∧
          Denotes s'' table v d ∧ s''.equal w v = true) ∧
      (∀ n t, ∃ w t', read n text t = .ok (w, rest) t' ∧
        read n (p ++ rest') t = .ok (w, rest') t') ∧
      ∀ (e : Engine) (env : Env) (t : Store),
        e.rep env (String.ofList (p ++ rest')) t = e.rep env (String.ofList p) t := by
  obtain ⟨-, names, d', short, hform, unfolds, reads | wrapped⟩ := read_spec hT h
  · cases denotes.unique unfolds.denotes
    obtain ⟨p, rfl, parts, holds⟩ := reads.isClassified.exists_holds
    obtain ⟨names', run⟩ := holds.run []
    have alone : ∀ rest', Parts p rest' → ∃ short, readForm (p ++ rest') [] (p ++ rest')
        (Nat.le_succ _) = .form names' d rest' short := fun rest' parts' =>
      run (p ++ rest') rest' (p ++ rest') parts' rfl (Nat.le_succ _)
    obtain ⟨_, hform'⟩ := alone rest parts
    cases hform'.symm.trans hform
    refine ⟨p, holds.nonempty, rfl, fun rest' parts' => ?_⟩
    obtain ⟨_, hrest'⟩ := alone rest' parts'
    have alike : ∀ n t, ∃ w t', read n (p ++ rest) t = .ok (w, rest) t' ∧
        read n (p ++ rest') t = .ok (w, rest') t' := fun n t =>
      ⟨_, _, read_of_readForm hform t, read_of_readForm hrest' t⟩
    refine ⟨?_, fun later hlater still => ?_, alike, fun e env t => ?_⟩
    · obtain ⟨w, t, hread, hread'⟩ := alike table s
      cases hread.symm.trans h
      exact hread'
    · obtain ⟨w, s'', hread, grow, unfolds'⟩ := read_of_form hlater hrest'
      have old := still.grow grow.toExtends
      exact ⟨w, s'', hread, unfolds'.denotes, old, unfolds'.denotes.equal old⟩
    · obtain ⟨_, hend⟩ := alone [] (.inl nofun)
      have whole := @read_of_readForm env.table _ _ _ _ _ hrest' t
      have only := @read_of_readForm env.table _ _ _ _ _ hend t
      rw [List.append_nil] at only
      rw [Engine.rep_of_read (by rw [String.toList_ofList]; exact whole),
        Engine.rep_of_read (by rw [String.toList_ofList]; exact only)]
  · cases denotes.unique unfolds.denotes
    exact absurd errorFree wrapped.not_errorFree

/-- A list in front of an open parenthesis is read as it is in front of a character that is no
delimiter. -/
theorem read_local_list : ∃ v s', 0 < Store.empty.newTable.2.tables.size ∧
    read 0 "(a 'b)(".toList Store.empty.newTable.2 = .ok (v, ['(']) s' ∧
    Denotes s' 0 v (.ofList .nil [.atom (.sym "a"), quoted (.atom (.sym "b"))]) ∧
    ErrorFree (.ofList .nil [.atom (.sym "a"), quoted (.atom (.sym "b"))]) ∧
    read 0 "(a 'b)c".toList Store.empty.newTable.2 = .ok (v, ['c']) s' := by
  have form : (match readForm "(a 'b)(".toList [] "(a 'b)(".toList (Nat.le_succ _) with
      | .form names d rest _ => some (names, d, rest)
      | .overlong _ _ => none) = some (["quote", "b", "a"],
        .ofList .nil [.atom (.sym "a"), quoted (.atom (.sym "b"))], ['(']) := by decide +kernel
  split at form
  · next names d rest short reading =>
    cases form
    obtain ⟨v, s', hread, -, unfolds⟩ :=
      read_of_form (by decide : 0 < Store.empty.newTable.2.tables.size) reading
    obtain ⟨p, -, split, go⟩ := read_local (by decide) hread unfolds.denotes (by decide)
    have htext : p = "(a 'b)".toList := (List.append_cancel_right
      (split.symm.trans (rfl : "(a 'b)(".toList = "(a 'b)".toList ++ ['('])))
    subst htext
    exact ⟨v, s', by decide, hread, unfolds.denotes, by decide, (go ['c'] (.inr rfl)).1⟩
  · cases form

end PocketLisp
