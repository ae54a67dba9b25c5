import PocketLisp.Proofs.AcyclicStores
import PocketLisp.Proofs.PrintedForms

/-!
# Equality and writing

Equality is an equivalence on finite values, taken part by part, and equal values are written
alike. The other way round it takes values without dotted ends whose symbols look like nothing else:
these are written alike only if they are equal, since each written form falls into its parts in one
way.
-/
namespace PocketLisp

def FiniteValue (s : Store) : Type := { v : Value // IsData (fun _ => True) s v }

section atoms

variable {v w z : Value}

/-- Atoms are equal if they are the same, or numbers or errors that hold the same. -/
theorem equalAtoms_iff : equalAtoms v w = true ↔ v = w ∨
    (∃ i j n, v = .num i n ∧ w = .num j n) ∨ ∃ i j m, v = .error i m ∧ w = .error j m := by
  unfold equalAtoms
  split
  · simp
  · simp
  · next numbers errors =>
    rw [decide_eq_true_iff]
    refine ⟨.inl, ?_⟩
    rintro (same | ⟨i, j, n, hv, hw⟩ | ⟨i, j, m, hv, hw⟩)
    · exact same
    · exact absurd hw (numbers i n j n hv)
    · exact absurd hw (errors i m j m hv)

theorem equalAtoms_refl (v : Value) : equalAtoms v v = true := equalAtoms_iff.2 (.inl rfl)

theorem equalAtoms_symm (h : equalAtoms v w = true) : equalAtoms w v = true := by
  rcases equalAtoms_iff.1 h with rfl | ⟨i, j, n, rfl, rfl⟩ | ⟨i, j, m, rfl, rfl⟩
  · exact h
  · exact equalAtoms_iff.2 (.inr (.inl ⟨j, i, n, rfl, rfl⟩))
  · exact equalAtoms_iff.2 (.inr (.inr ⟨j, i, m, rfl, rfl⟩))

theorem equalAtoms_trans (h : equalAtoms v w = true) (h' : equalAtoms w z = true) :
    equalAtoms v z = true := by
  rcases equalAtoms_iff.1 h with rfl | ⟨i, j, n, rfl, rfl⟩ | ⟨i, j, m, rfl, rfl⟩
  · exact h'
  · cases z <;> exact h'
  · cases z <;> exact h'

theorem equalAtoms_spelling (h : equalAtoms v w = true) :
    atomText v = atomText w ∧ valueSpelling.isNil v = valueSpelling.isNil w := by
  rcases equalAtoms_iff.1 h with rfl | ⟨i, j, n, rfl, rfl⟩ | ⟨i, j, m, rfl, rfl⟩
  · exact ⟨rfl, rfl⟩
  · exact ⟨rfl, rfl⟩
  · exact ⟨rfl, rfl⟩

end atoms

namespace Sexp
variable {α : Type} {r : α → α → Bool} {t u w : Sexp α}

theorem agree_refl (refl : ∀ a, r a a = true) (t : Sexp α) : t.agree r t = true := by
  induction t with
  | atom a => exact refl a
  | cons a d ihCar ihCdr => rw [agree, ihCar, ihCdr, Bool.and_self]

theorem agree_symm (symm : ∀ a b, r a b = true → r b a = true) (h : t.agree r u = true) :
    u.agree r t = true := by
  induction t generalizing u with
  | atom a =>
    cases u with
    | atom b => exact symm a b h
    | cons _ _ => cases h
  | cons a d ihCar ihCdr =>
    cases u with
    | atom _ => cases h
    | cons b e =>
      obtain ⟨car, cdr⟩ := Bool.and_eq_true_iff.1 h
      exact Bool.and_eq_true_iff.2 ⟨ihCar car, ihCdr cdr⟩

theorem agree_trans (trans : ∀ a b c, r a b = true → r b c = true → r a c = true)
    (h : t.agree r u = true) (h' : u.agree r w = true) : t.agree r w = true := by
  induction t generalizing u w with
  | atom a =>
    cases u with
    | cons _ _ => cases h
    | atom b =>
      cases w with
      | atom c => exact trans a b c h h'
      | cons _ _ => cases h'
  | cons a d ihCar ihCdr =>
    cases u with
    | atom _ => cases h
    | cons b e =>
      cases w with
      | atom _ => cases h'
      | cons c f =>
        obtain ⟨car, cdr⟩ := Bool.and_eq_true_iff.1 h
        obtain ⟨car', cdr'⟩ := Bool.and_eq_true_iff.1 h'
        exact Bool.and_eq_true_iff.2 ⟨ihCar car car', ihCdr cdr cdr'⟩

theorem render_eq_of_agree {spelling : Spelling α}
    (spelled : ∀ a b, r a b = true →
      spelling.text a = spelling.text b ∧ spelling.isNil a = spelling.isNil b)
    (h : t.agree r u = true) (rest : List Char) :
    t.render spelling rest = u.render spelling rest ∧
      t.renderTail spelling rest = u.renderTail spelling rest := by
  induction t generalizing u rest with
  | atom a =>
    cases u with
    | cons _ _ => cases h
    | atom b =>
      obtain ⟨text, isNil⟩ := spelled a b h
      simp only [render, renderTail, text, isNil, and_self]
  | cons a d ihCar ihCdr =>
    cases u with
    | atom _ => cases h
    | cons b e =>
      obtain ⟨car, cdr⟩ := Bool.and_eq_true_iff.1 h
      simp only [render, renderTail, (ihCdr cdr rest).2, (ihCar car _).1, and_self]

end Sexp

namespace Store
variable {s : Store}

theorem equal_equivalence (s : Store) :
    Equivalence fun v w : FiniteValue s => s.equal v.1 w.1 = true where
  refl v := Sexp.agree_refl equalAtoms_refl (s.tree v.1)
  symm h := Sexp.agree_symm (fun _ _ => equalAtoms_symm) h
  trans h h' := Sexp.agree_trans (fun _ _ _ => equalAtoms_trans) h h'

theorem equal_cons_iff {a b : Nat} {c d : Cell} (ha : IsData (fun _ => True) s (.cons a))
    (hb : IsData (fun _ => True) s (.cons b)) (cell : s.cells[a]? = some c)
    (cell' : s.cells[b]? = some d) : s.equal (.cons a) (.cons b) = true ↔
      s.equal c.car d.car = true ∧ s.equal c.cdr d.cdr = true := by
  rw [equal, ha.tree_of_cell cell, hb.tree_of_cell cell', Sexp.agree, Bool.and_eq_true]
  rfl

theorem print_eq_of_equal {v w : Value} (h : s.equal v w = true) : s.print v = s.print w := by
  rw [print, print, Sexp.written, Sexp.written,
    (Sexp.render_eq_of_agree (fun _ _ => equalAtoms_spelling) h []).1]

end Store

/-- A name that is not read as anything but a symbol. It may be an overlong numeral, which is not
read at all. -/
structure PlainName (name : String) : Prop where
  nonempty : name.toList ≠ []
  run : ∀ c ∈ name.toList, isDelimiter c = false
  notNil : name ≠ "nil"
  noNumber : ∀ n : Fixnum, classify name.toList ≠ .ok (.num n)

def Atom.Plain : Atom → Prop
  | .nil => True
  | .num _ => True
  | .sym name => PlainName name
  | .error _ => False

/-- The values that `nil`, numbers, plain symbols of a table, and proper lists make up. -/
inductive PlainValue (s : Store) (table : Nat) : Value → Prop where
  | nil : PlainValue s table .nil
  | num (serial : Nat) (n : Fixnum) : PlainValue s table (.num serial n)
  | sym {sym : Symbol} (found : s.findSymbol? table sym.name = some sym)
      (name : PlainName sym.name) : PlainValue s table (.sym sym)
  | list {v : Value} {cells : List Nat} {xs : List Value} (chain : Chain s .nil v cells xs)
      (elements : ∀ x ∈ xs, PlainValue s table x) : PlainValue s table v

section plain

variable {a b : Atom} {d e : Datum} {rest rest' : List Char}

theorem Atom.Plain.token (h : a.Plain) :
    datumSpelling.text a ≠ [] ∧ ∀ c ∈ datumSpelling.text a, isDelimiter c = false := by
  cases a with
  | sym name => exact ⟨h.nonempty, h.run⟩
  | error message => exact absurd h id
  | nil =>
    have readable : Atom.Readable .nil := trivial
    exact ⟨(classified_text readable).1, (classified_text readable).2.1⟩
  | num n =>
    have readable : Atom.Readable (.num n) := trivial
    exact ⟨(classified_text readable).1, (classified_text readable).2.1⟩

theorem Atom.Plain.eq_of_text (ha : a.Plain) (hb : b.Plain)
    (same : datumSpelling.text a = datumSpelling.text b) : a = b := by
  have nil : Classified (datumSpelling.text .nil) .nil :=
    (classified_text (a := .nil) trivial).2.2
  have num (n : Fixnum) : Classified (datumSpelling.text (.num n)) (.num n) :=
    (classified_text (a := .num n) trivial).2.2
  cases a with
  | error _ => exact absurd ha id
  | nil =>
    cases b with
    | error _ => exact absurd hb id
    | nil => rfl
    | num n => exact Except.ok.inj ((same ▸ nil).symm.trans (num n))
    | sym name => exact absurd (String.toList_inj.1 same).symm hb.notNil
  | num n =>
    cases b with
    | error _ => exact absurd hb id
    | nil => exact Except.ok.inj ((same ▸ num n).symm.trans nil)
    | num m => exact Except.ok.inj ((same ▸ num n).symm.trans (num m))
    | sym name => exact absurd ((congrArg classify same.symm).trans (num n)) (hb.noNumber n)
  | sym name =>
    cases b with
    | error _ => exact absurd hb id
    | nil => exact absurd (String.toList_inj.1 same) ha.notNil
    | num m => exact absurd ((congrArg classify same).trans (num m)) (ha.noNumber m)
    | sym name' => exact congrArg _ (String.toList_inj.1 same)

/-- A token and what ends it are told apart in one way. -/
theorem token_append_inj {token token' : List Char} (run : ∀ c ∈ token, isDelimiter c = false)
    (run' : ∀ c ∈ token', isDelimiter c = false) (ends : EndsToken rest) (ends' : EndsToken rest')
    (same : token ++ rest = token' ++ rest') : token = token' ∧ rest = rest' := by
  obtain ⟨take, drop⟩ := takeWhile_token run ends
  obtain ⟨take', drop'⟩ := takeWhile_token run' ends'
  rw [same] at take drop
  exact ⟨take.symm.trans take', drop.symm.trans drop'⟩

theorem Atom.Plain.text_append_ne (h : a.Plain) (rest more : List Char) :
    datumSpelling.text a ++ rest ≠ '(' :: more := by
  obtain ⟨nonempty, run⟩ := h.token
  intro same
  cases text : datumSpelling.text a with
  | nil => exact nonempty text
  | cons c token =>
    rw [text, List.cons_append] at same
    have delimiter := run c (text ▸ List.mem_cons_self)
    rw [(List.cons.inj same).1] at delimiter
    cases delimiter

/-- Plain data without dotted ends and what follows them are told apart in one way: a datum in
front of something that ends a token, and the rest of a list in front of anything. -/
theorem render_inj (hd : d.All Atom.Plain) (he : e.All Atom.Plain) (properd : ProperLists d)
    (propere : ProperLists e) :
    (EndsToken rest → EndsToken rest' →
      d.render datumSpelling rest = e.render datumSpelling rest' → d = e ∧ rest = rest') ∧
    (d.spine.2 = .nil → e.spine.2 = .nil →
      d.renderTail datumSpelling rest = e.renderTail datumSpelling rest' →
        d = e ∧ rest = rest') := by
  induction d generalizing e rest rest' with
  | atom a =>
    cases e with
    | atom b =>
      refine ⟨fun ends ends' same => ?_, fun lastd laste same => ?_⟩
      · obtain ⟨text, rests⟩ := token_append_inj hd.token.2 he.token.2 ends ends' same
        exact ⟨congrArg _ (hd.eq_of_text he text), rests⟩
      · obtain rfl : a = .nil := lastd
        obtain rfl : b = .nil := laste
        exact ⟨rfl, (List.cons.inj same).2⟩
    | cons b e =>
      refine ⟨fun _ _ same => absurd same (hd.text_append_ne _ _), fun lastd _ same => ?_⟩
      obtain rfl : a = .nil := lastd
      exact absurd (List.cons.inj same).1 (by decide)
  | cons a d ihCar ihCdr =>
    cases e with
    | atom b =>
      refine ⟨fun _ _ same => absurd same.symm (he.text_append_ne _ _), fun _ laste same => ?_⟩
      obtain rfl : b = .nil := laste
      exact absurd (List.cons.inj same).1 (by decide)
    | cons b e =>
      obtain ⟨cara, cdrd, lastd⟩ := properd
      obtain ⟨carb, cdre, laste⟩ := propere
      -- A list falls into its first element, and the rest of the list, which ends a token.
      have parts (same : a.render datumSpelling (d.renderTail datumSpelling rest) =
          b.render datumSpelling (e.renderTail datumSpelling rest')) :
          Sexp.cons a d = .cons b e ∧ rest = rest' := by
        obtain ⟨rfl, tails⟩ := (ihCar hd.1 he.1 cara carb).1 (endsToken_renderTail _ d rest)
          (endsToken_renderTail _ e rest') same
        obtain ⟨rfl, rests⟩ := (ihCdr hd.2 he.2 cdrd cdre).2 lastd laste tails
        exact ⟨rfl, rests⟩
      exact ⟨fun _ _ same => parts (List.cons.inj same).2,
        fun _ _ same => parts (List.cons.inj same).2⟩

end plain

section values

variable {s : Store} {table : Nat} {v w : Value}

theorem exists_data_of_elements {p : Datum → Prop} {xs : List Value}
    (each : ∀ x ∈ xs, ∃ d, Denotes s table x d ∧ p d) :
    ∃ ds, List.Forall₂ (Denotes s table) xs ds ∧ ∀ d ∈ ds, p d := by
  induction xs with
  | nil => exact ⟨[], .nil, List.forall_mem_nil _⟩
  | cons x xs ih =>
    obtain ⟨⟨d, denotes, hd⟩, others⟩ := List.forall_mem_cons.1 each
    obtain ⟨ds, denoted, all⟩ := ih others
    exact ⟨d :: ds, .cons denotes denoted, List.forall_mem_cons.2 ⟨hd, all⟩⟩

/-- A plain value is a plain datum without dotted ends. -/
theorem PlainValue.exists_datum (h : PlainValue s table v) :
    ∃ d, Denotes s table v d ∧ d.All Atom.Plain ∧ ProperLists d := by
  induction h with
  | nil => exact ⟨.atom .nil, .atom rfl, trivial, trivial⟩
  | num serial n => exact ⟨.atom (.num n), .atom ⟨serial, rfl⟩, trivial, trivial⟩
  | @sym sym found name => exact ⟨.atom (.sym sym.name), .atom ⟨sym, rfl, found⟩, name, trivial⟩
  | @list v cells xs chain _ ih =>
    obtain ⟨ds, denoted, all⟩ := exists_data_of_elements ih
    refine ⟨.ofList .nil ds, ?_, Sexp.all_ofList trivial fun d hd => (all d hd).1,
      properLists_ofList fun d hd => (all d hd).2⟩
    exact Unfolds.of_chain chain (fun _ _ => trivial) denoted (.atom rfl)

theorem PlainValue.equal_of_print (h : PlainValue s table v) (h' : PlainValue s table w)
    (same : s.print v = s.print w) : s.equal v w = true := by
  obtain ⟨d, denotes, plain, proper⟩ := h.exists_datum
  obtain ⟨e, denotes', plain', proper'⟩ := h'.exists_datum
  rw [denotes.print_eq, denotes'.print_eq] at same
  have ends : EndsToken [] := fun _ h => absurd h (Option.not_mem_none _)
  obtain ⟨rfl, -⟩ := (render_inj plain plain' proper proper').1 ends ends
    (String.ofList_injective same)
  exact denotes.equal denotes'

/-- Equality and writing fit together. On finite values equality is an equivalence, two cells are
equal exactly if their cars and their cdrs are, and equal values are written alike. Values made of
`nil`, numbers, plain symbols of one table and proper lists are equal exactly if they are written
alike. -/
theorem equality_and_writing (s : Store) :
    (Equivalence fun v w : FiniteValue s => s.equal v.1 w.1 = true) ∧
    (∀ (v w : FiniteValue s) (a b : Nat) (c d : Cell), v.1 = .cons a → w.1 = .cons b →
      s.cells[a]? = some c → s.cells[b]? = some d →
        (s.equal v.1 w.1 = true ↔ s.equal c.car d.car = true ∧ s.equal c.cdr d.cdr = true)) ∧
    (∀ v w : FiniteValue s, s.equal v.1 w.1 = true → s.print v.1 = s.print w.1) ∧
    ∀ table v w, PlainValue s table v → PlainValue s table w →
      (s.equal v w = true ↔ s.print v = s.print w) := by
  refine ⟨s.equal_equivalence, ?_, fun _ _ => Store.print_eq_of_equal,
    fun _ _ _ h h' => ⟨Store.print_eq_of_equal, h.equal_of_print h'⟩⟩
  rintro ⟨_, hv⟩ ⟨_, hw⟩ a b c d rfl rfl cell cell'
  exact Store.equal_cons_iff hv hw cell cell'

/-- Two lists of the number seven and a symbol, and the list of the symbol alone. -/
theorem equality_and_writing_lists : ∃ s : Store,
    PlainValue s 0 (.cons 0) ∧ PlainValue s 0 (.cons 1) ∧ PlainValue s 0 (.cons 2) ∧
      s.equal (.cons 0) (.cons 2) = true ∧ s.print (.cons 0) = s.print (.cons 2) ∧
      s.print (.cons 0) ≠ s.print (.cons 1) := by
  let seven : Fixnum := ⟨7, by decide, by decide⟩
  let s : Store := ⟨#[⟨.num 2 seven, .cons 1⟩, ⟨.sym ⟨1, "a"⟩, .nil⟩, ⟨.num 3 seven, .cons 1⟩], #[],
    #[[⟨1, "a"⟩]], 4, #[]⟩
  have symbolic : classify "a".toList = .ok (.sym "a") := rfl
  have name : PlainName "a" := ⟨by decide, not_isDelimiter_of_all (by decide), by decide,
    fun n number => by cases symbolic.symm.trans number⟩
  have symbol : PlainValue s 0 (.sym ⟨1, "a"⟩) := .sym rfl name
  have short : Chain s .nil (.cons 1) [1] [.sym ⟨1, "a"⟩] := .cons rfl .nil
  have first : PlainValue s 0 (.cons 0) := .list (.cons rfl short)
    (List.forall_mem_cons.2 ⟨.num 2 seven, List.forall_mem_singleton.2 symbol⟩)
  have second : PlainValue s 0 (.cons 1) := .list short (List.forall_mem_singleton.2 symbol)
  have third : PlainValue s 0 (.cons 2) := .list (.cons rfl short)
    (List.forall_mem_cons.2 ⟨.num 3 seven, List.forall_mem_singleton.2 symbol⟩)
  obtain ⟨-, -, -, alike⟩ := equality_and_writing s
  have same : s.equal (.cons 0) (.cons 2) = true := by decide
  refine ⟨s, first, second, third, same, (alike 0 _ _ first third).1 same, fun print => ?_⟩
  exact absurd ((alike 0 _ _ first second).2 print) (by decide)

end values

end PocketLisp
