import PocketLisp.Proofs.Numerals
import PocketLisp.Proofs.ReaderRuns
import PocketLisp.Proofs.StoreTrees

/-!
# Reading what has been written

The written form of a value reads as that value, in front of any text that does not go on its last
token. Only dotted ends are not undone: the dot is read as a symbol, so a chain with a dotted end
becomes a list that is longer by two.
-/
namespace PocketLisp

/-- A name that is read as the symbol of that name. -/
structure ReadableName (name : String) : Prop where
  nonempty : name.toList ≠ []
  run : ∀ c ∈ name.toList, isDelimiter c = false
  notNil : name ≠ "nil"
  noNumber : ∀ n : Fixnum, isNumeral name.toList = true → numeralValue name.toList ≠ n.val
  short : isNumeral name.toList = true → (unsigned name.toList).length ≤ digitLimit

/-- An atom that is read as itself: no error, and no symbol whose name is not readable. -/
def Atom.Readable : Atom → Prop
  | .nil => True
  | .num _ => True
  | .sym name => ReadableName name
  | .error _ => False

mutual

/-- The datum with every dotted end made explicit: a chain that ends in an atom other than `nil` is
the list of its elements, the dot and that atom. -/
def undot : Datum → Datum
  | .atom a => .atom a
  | .cons a d => .ofList .nil (undot a :: undotTail d)

def undotTail : Datum → List Datum
  | .atom .nil => []
  | .atom a => [.atom (.sym "."), .atom a]
  | .cons a d => undot a :: undotTail d

end

def datumSpelling : Spelling Atom where
  text
    | .nil => "nil".toList
    | .num n => n.numeral
    | .sym name => name.toList
    | .error message => "<error: ".toList ++ message.toList ++ ">".toList
  isNil a := a = .nil

theorem dot_readable : ReadableName "." where
  nonempty := by decide
  run := not_isDelimiter_of_all (by decide)
  notNil := by decide
  noNumber _ h := by cases h
  short h := by cases h

theorem classified_text {a : Atom} (h : a.Readable) :
    datumSpelling.text a ≠ [] ∧ (∀ c ∈ datumSpelling.text a, isDelimiter c = false) ∧
      Classified (datumSpelling.text a) a := by
  cases a with
  | nil =>
    exact ⟨by decide, not_isDelimiter_of_all (by decide), classify_eq_ok (.nil rfl) (by decide)⟩
  | num n =>
    have value := numeralValue_integerNumeral n.val
    have hlimit : (unsigned (integerNumeral n.val)).length ≤ digitLimit := by
      have bound : n.val.natAbs < Nat.pow 10 (9 + 1) := by
        have lower := n.lower
        have upper := n.upper
        show n.val.natAbs < 10000000000
        omega
      rw [unsigned_integerNumeral]
      exact Nat.le_trans (length_naturalDigits_le bound) (by decide)
    exact ⟨integerNumeral_ne_nil n.val, not_isDelimiter_integerNumeral n.val,
      classify_eq_ok (.num (isNumeral_integerNumeral n.val) value) fun _ => hlimit⟩
  | sym name =>
    have atom : TokenAtom name.toList (.sym name) := by
      have := TokenAtom.sym (fun e => h.notNil (String.toList_inj.1 e)) h.noNumber
      rwa [String.ofList_toList] at this
    exact ⟨h.nonempty, h.run, classify_eq_ok atom h.short⟩
  | error message => exact absurd h id

theorem endsToken_renderTail (spelling : Spelling Atom) (d : Datum) (rest : List Char) :
    EndsToken (d.renderTail spelling rest) := by
  cases d with
  | atom a =>
    simp only [Sexp.renderTail]
    split <;> exact endsToken_cons (by decide) _
  | cons a d => exact endsToken_cons (by decide) _

/-- The written form of a readable datum reads as the datum with its dotted ends made explicit. -/
theorem reads_render {d : Datum} (h : d.All Atom.Readable) (rest : List Char) :
    (EndsToken rest ∨ (∃ a e, d = .cons a e) →
      Reads Classified (d.render datumSpelling rest) (undot d) rest) ∧
    ReadsItems Classified (d.renderTail datumSpelling rest) (undotTail d) rest := by
  induction d generalizing rest with
  | atom a =>
    obtain ⟨nonempty, run, classified⟩ := classified_text h
    constructor
    · intro ends
      rcases ends with ends | ⟨_, _, e⟩
      · exact @Reads.atom _ [] _ _ _ (by simp) nonempty run ends classified
      · cases e
    · by_cases hnil : a = .nil
      · subst hnil
        exact @ReadsItems.close _ [] rest (by simp)
      · have hitems : undotTail (.atom a) = [.atom (.sym "."), .atom a] := by
          cases a <;> first | exact absurd rfl hnil | rfl
        have htext : (Sexp.atom a).renderTail datumSpelling rest =
            [' '] ++ (['.'] ++ ([' '] ++ (datumSpelling.text a ++ ([] ++ ')' :: rest)))) := by
          have hspelling : datumSpelling.isNil a = false := by simp [datumSpelling, hnil]
          simp only [Sexp.renderTail, hspelling]
          rfl
        rw [hitems, htext]
        have dot := (classified_text (show Atom.Readable (.sym ".") from dot_readable)).2
        exact .item (.atom isBlank_space (by simp) dot.1 (endsToken_cons (by decide) _) dot.2)
          (.item (.atom isBlank_space nonempty run (endsToken_cons (by decide) _) classified)
            (.close (by simp)))
  | cons a d ihCar ihCdr =>
    have ends := endsToken_renderTail datumSpelling d rest
    have first := (ihCar h.1 (d.renderTail datumSpelling rest)).1 (.inl ends)
    have others := (ihCdr h.2 rest).2
    exact ⟨fun _ => @Reads.list _ [] _ _ _ (by simp) (.item first others),
      .item (@Reads.blanks _ [' '] _ _ _ isBlank_space first) others⟩

theorem undot_of_properLists {d : Datum} (h : ProperLists d) :
    undot d = d ∧ (d.spine.2 = .nil → Sexp.ofList .nil (undotTail d) = d) := by
  induction d with
  | atom a =>
    refine ⟨rfl, ?_⟩
    intro e
    rw [show a = .nil from e]
    rfl
  | cons a d ihCar ihCdr =>
    obtain ⟨car, cdr, last⟩ := h
    have hcar := (ihCar car).1
    have hcdr := (ihCdr cdr).2 last
    have whole : Sexp.ofList .nil (undot a :: undotTail d) = .cons a d := by
      rw [hcar]
      exact congrArg _ hcdr
    exact ⟨whole, fun _ => whole⟩

theorem undot_all {p : Atom → Prop} (hdot : p (.sym ".")) (hnil : p .nil) {d : Datum}
    (h : d.All p) : (undot d).All p ∧ ∀ e ∈ undotTail d, e.All p := by
  induction d with
  | atom a =>
    refine ⟨h, ?_⟩
    cases a with
    | nil => simp [undotTail]
    | _ => exact List.forall_mem_cons.2 ⟨hdot, List.forall_mem_cons.2 ⟨h, by simp⟩⟩
  | cons a d ihCar ihCdr =>
    have items : ∀ e ∈ undot a :: undotTail d, e.All p :=
      List.forall_mem_cons.2 ⟨(ihCar h.1).1, (ihCdr h.2).2⟩
    exact ⟨Sexp.all_ofList hnil items, items⟩

section denoted

variable {s : Store} {table : Nat}

theorem cell?_of_isAtom (v : Value) (a : Atom) (h : s.IsAtom table v a) : s.cell? v = none := by
  cases a with
  | nil =>
    cases h
    rfl
  | num n =>
    obtain ⟨_, rfl⟩ := h
    rfl
  | sym name =>
    obtain ⟨_, rfl, -⟩ := h
    rfl
  | error message =>
    obtain ⟨_, rfl⟩ := h
    rfl

theorem Denotes.print_eq {v : Value} {d : Datum} (h : Denotes s table v d) :
    s.print v = d.written datumSpelling := by
  refine Unfolds.print_eq cell?_of_isAtom (fun w a hw => ?_) h
  cases a with
  | nil =>
    cases hw
    exact ⟨rfl, by simp [datumSpelling]⟩
  | num n =>
    obtain ⟨_, rfl⟩ := hw
    exact ⟨rfl, by simp [datumSpelling]⟩
  | sym name =>
    obtain ⟨sym, rfl, hsym⟩ := hw
    exact ⟨congrArg String.toList (Store.name_of_findSymbol? hsym), by simp [datumSpelling]⟩
  | error message =>
    obtain ⟨_, rfl⟩ := hw
    exact ⟨rfl, by simp [datumSpelling]⟩

theorem Denotes.equal {v w : Value} {d : Datum} (h : Denotes s table v d)
    (h' : Denotes s table w d) : s.equal v w = true := by
  refine Unfolds.equal cell?_of_isAtom (fun x y a hx hy => ?_) h h'
  cases a with
  | nil =>
    cases hx
    cases hy
    rfl
  | num n =>
    obtain ⟨_, rfl⟩ := hx
    obtain ⟨_, rfl⟩ := hy
    simp [equalAtoms]
  | sym name =>
    obtain ⟨sym, rfl, hsym⟩ := hx
    obtain ⟨sym', rfl, hsym'⟩ := hy
    cases hsym.symm.trans hsym'
    simp [equalAtoms]
  | error message =>
    obtain ⟨_, rfl⟩ := hx
    obtain ⟨_, rfl⟩ := hy
    simp [equalAtoms]

/-- What a value is written as reads as the value with its dotted ends made explicit, whatever
follows that does not go on its last token. Without dotted ends it is an equal value. -/
theorem read_print (hT : table < s.tables.size) {v : Value} {d : Datum}
    (denotes : Denotes s table v d) (readable : d.All Atom.Readable) {rest : List Char}
    (ends : EndsToken rest ∨ ∃ a, v = .cons a) :
    ∃ v' s', read table ((s.print v).toList ++ rest) s = .ok (v', rest) s' ∧
      Denotes s' table v' (undot d) ∧ Denotes s' table v d ∧
      (ProperLists d → undot d = d ∧ s'.equal v' v = true) := by
  have htext : (s.print v).toList ++ rest = d.render datumSpelling rest := by
    rw [denotes.print_eq, Sexp.written, String.toList_ofList, ← (d.render_append _ [] rest).1]
    rfl
  have hshape : EndsToken rest ∨ ∃ a e, d = .cons a e := by
    rcases ends with ends | ⟨a, rfl⟩
    · exact .inl ends
    · cases denotes with
      | atom h => exact absurd h Store.not_isAtom_cons
      | cons _ _ _ _ => exact .inr ⟨_, _, rfl⟩
  obtain ⟨names, short, hform⟩ := ((reads_render readable rest).1 hshape).run
    (d.render datumSpelling rest) [] (d.render datumSpelling rest) rfl (Nat.le_succ _)
  have named : Named (undot d) := by
    have hd : Named d := readable.imp fun a ha e => by
      rw [e] at ha
      exact ha.notNil rfl
    exact (undot_all (by decide) (by simp) hd).1
  obtain ⟨v', s', hread, adds, unfolds⟩ := (Reading.form names (undot d) rest short).store_spec hT
  have denotes' := (unfolds named).denotes
  have old := denotes.grow adds.toExtends
  refine ⟨v', s', ?_, denotes', old, fun proper => ?_⟩
  · rw [htext, read, hform]
    exact hread
  · have same := (undot_of_properLists proper).1
    exact ⟨same, (same ▸ denotes').equal old⟩

/-- A pair of a symbol and a negative number, in front of a character that is no delimiter. -/
theorem read_print_dotted : ∃ s : Store, ∃ d, 0 < s.tables.size ∧ Denotes s 0 (.cons 0) d ∧
    d.All Atom.Readable ∧ ∃ v' s', read 0 ((s.print (.cons 0)).toList ++ ['b']) s =
        .ok (v', ['b']) s' ∧
      Denotes s' 0 v' (.ofList .nil [.atom (.sym "a"), .atom (.sym "."),
        .atom (.num ⟨-5, by decide, by decide⟩)]) := by
  have denotes : Denotes
      ⟨#[⟨.sym ⟨1, "a"⟩, .num 2 ⟨-5, by decide, by decide⟩⟩], #[], #[[⟨1, "a"⟩]], 3, #[]⟩ 0
      (.cons 0) (.cons (.atom (.sym "a")) (.atom (.num ⟨-5, by decide, by decide⟩))) :=
    .cons rfl trivial (.atom ⟨⟨1, "a"⟩, rfl, rfl⟩) (.atom ⟨2, rfl⟩)
  have name : ReadableName "a" :=
    ⟨by decide, not_isDelimiter_of_all (by decide), by decide, fun _ h => absurd h (by decide),
      fun h => absurd h (by decide)⟩
  obtain ⟨v', s', hread, denotes', -⟩ :=
    @read_print _ 0 (by decide) _ _ denotes ⟨name, trivial⟩ ['b'] (.inr ⟨0, rfl⟩)
  exact ⟨_, _, by decide, denotes, ⟨name, trivial⟩, v', s', hread, denotes'⟩

end denoted

end PocketLisp
