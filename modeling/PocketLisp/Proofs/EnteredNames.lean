import PocketLisp.Proofs.LineFaults
import PocketLisp.Proofs.TokenLayout

/-!
# The names that reading enters

Reading a text enters the same names whatever the table has before. They are names in the text, and
all names that the datum mentions are among them. A table never gives up a symbol. So a text that
has been read once has entered all its names, and reading it again adds nothing to any table.
-/
namespace PocketLisp

theorem Store.isInterned_of_symbols {s t : Store} {table : Nat} {name : String}
    (symbols : ∀ sym, s.findSymbol? table name = some sym → t.findSymbol? table name = some sym)
    (interned : s.isInterned table name = true) : t.isInterned table name = true := by
  obtain ⟨sym, found⟩ := Option.isSome_iff_exists.1 interned
  simp only [Store.isInterned, symbols sym found, Option.isSome_some]

theorem Extends.isInterned {s t : Store} (h : Extends s t) {table : Nat} {name : String} :
    s.isInterned table name = true → t.isInterned table name = true :=
  Store.isInterned_of_symbols (h.symbols table name)

/-- The second store has the symbols of the first one, and no table has further names than the given
ones. -/
structure Gains (names : List String) (s s' : Store) : Prop where
  tableCount : s'.tables.size = s.tables.size
  symbols : ∀ (table : Nat) (name : String) (sym : Symbol),
    s.findSymbol? table name = some sym → s'.findSymbol? table name = some sym
  only : ∀ (table : Nat) (name : String),
    s'.isInterned table name = true → s.isInterned table name = true ∨ name ∈ names

namespace Gains
variable {names more : List String} {s t u : Store}

theorem of_tables (tables : t.tables = s.tables) : Gains names s t where
  tableCount := by rw [tables]
  symbols table name sym h := by simpa only [Store.findSymbol?, Store.symbols, tables] using h
  only table name h := by
    simp only [Store.isInterned, Store.findSymbol?, Store.symbols, tables] at h ⊢
    exact .inl h

theorem refl (s : Store) : Gains names s s := of_tables rfl

theorem trans (h : Gains names s t) (h' : Gains names t u) : Gains names s u where
  tableCount := h'.tableCount.trans h.tableCount
  symbols table name sym found := h'.symbols table name sym (h.symbols table name sym found)
  only table name interned := (h'.only table name interned).elim (h.only table name) .inr

theorem mono (h : Gains names s t) (sub : ∀ name ∈ names, name ∈ more) : Gains more s t :=
  ⟨h.tableCount, h.symbols, fun table name interned =>
    (h.only table name interned).imp_right (sub name)⟩

theorem isInterned (h : Gains names s t) {table : Nat} {name : String} :
    s.isInterned table name = true → t.isInterned table name = true :=
  Store.isInterned_of_symbols (h.symbols table name)

end Gains

namespace Store
variable {s : Store} {table : Nat}

theorem gains_intern (s : Store) (table : Nat) (name : String) :
    Gains [name] s (s.intern table name).2 where
  tableCount := (s.addsData_intern table name).tableCount
  symbols _ _ _ found := findSymbol?_intern_of_some found
  only t n interned := by
    by_cases hnil : name = "nil"
    · simp only [hnil, intern_nil] at interned
      exact .inl interned
    cases hfind : s.findSymbol? table name with
    | some sym =>
      rw [intern_of_findSymbol? hfind hnil] at interned
      exact .inl interned
    | none =>
      rw [intern_of_none hfind hnil] at interned
      by_cases hn : n = name
      · exact .inr (List.mem_singleton.2 hn)
      · refine .inl ?_
        simp only [isInterned, findSymbol?, symbols, Array.getElem?_modify] at interned ⊢
        split at interned
        · cases htable : s.tables[t]? with
          | none => simp [htable] at interned
          | some syms => simpa [htable, Ne.symm hn] using interned
        · exact interned

theorem gains_internAll (s : Store) (table : Nat) (names : List String) :
    Gains names s (s.internAll table names) := by
  induction names generalizing s with
  | nil => exact .refl s
  | cons name names ih =>
    refine ((s.gains_intern table name).mono ?_).trans ((ih _).mono ?_)
    · simp
    · exact fun n hn => List.mem_cons_of_mem name hn

/-- A name that is there already is interned without a change. -/
theorem tables_intern_of_isInterned {name : String} (h : s.isInterned table name = true) :
    (s.intern table name).2.tables = s.tables := by
  by_cases hnil : name = "nil"
  · rw [hnil, intern_nil]
  · obtain ⟨sym, found⟩ := Option.isSome_iff_exists.1 h
    rw [intern_of_findSymbol? found hnil]

/-- What a datum does to the symbol tables comes from the names that it mentions. -/
theorem ofDatum_induct {R : Store → Store → Prop}
    (trans : ∀ {s t u : Store}, R s t → R t u → R s u)
    (still : ∀ {s t : Store}, t.tables = s.tables → R s t) (d : Datum)
    (intern : ∀ name ∈ mentioned d, ∀ s : Store, R s (s.intern table name).2) :
    (∀ s, R s (ofDatum table d s).2) ∧ ∀ done s, R s (ofTail table d done s).2 := by
  induction d with
  | atom a =>
    have atom : ∀ s : Store, R s (s.ofAtom table a).2 := by
      intro s
      cases a with
      | sym name => exact intern name (List.mem_singleton.2 rfl) s
      | _ => exact still rfl
    exact ⟨atom, fun done s => trans (atom s) (still (relinks_reverseOnto _ _ _ _).tables)⟩
  | cons a d iha ihd =>
    obtain ⟨first, -⟩ := iha fun name hname => intern name (List.mem_append_left _ hname)
    obtain ⟨-, others⟩ := ihd fun name hname => intern name (List.mem_append_right _ hname)
    have cell : ∀ (s : Store) (x y : Value), R s (s.cons x y).2 := fun s x y => still rfl
    exact ⟨fun s => trans (first s) (trans (cell _ _ _) (others _ _)),
      fun done s => trans (first s) (trans (cell _ _ _) (others _ _))⟩

theorem gains_ofDatum (s : Store) (table : Nat) (d : Datum) :
    Gains (mentioned d) s (ofDatum table d s).2 := by
  refine (ofDatum_induct .trans .of_tables d fun name hname s => ?_).1 s
  refine (s.gains_intern table name).mono fun n hn => ?_
  rwa [List.mem_singleton.1 hn]

end Store

/-- The second store has the tables of the first one if the names are in one of these. -/
def Store.Still (table : Nat) (names : List String) (s s' : Store) : Prop :=
  (∀ name ∈ names, s.isInterned table name = true) → s'.tables = s.tables

namespace Store.Still
variable {table : Nat} {names : List String} {s t u : Store}

theorem trans (h : Still table names s t) (h' : Still table names t u) :
    Still table names s u := by
  intro interned
  have same := h interned
  refine (h' fun name hname => ?_).trans same
  simpa only [isInterned, findSymbol?, symbols, same] using interned name hname

theorem intern {name : String} (hname : name ∈ names) (s : Store) :
    Still table names s (s.intern table name).2 :=
  fun interned => tables_intern_of_isInterned (interned name hname)

theorem internAll {more : List String} (sub : ∀ name ∈ more, name ∈ names) (s : Store) :
    Still table names s (s.internAll table more) := by
  induction more generalizing s with
  | nil => exact fun _ => rfl
  | cons name more ih =>
    exact (intern (sub name List.mem_cons_self) s).trans
      (ih (fun n hn => sub n (List.mem_cons_of_mem name hn)) _)

theorem ofDatum {d : Datum} (sub : ∀ name ∈ mentioned d, name ∈ names) (s : Store) :
    Still table names s (ofDatum table d s).2 :=
  (ofDatum_induct (R := Still table names) trans (fun same _ => same) d
    fun name hname => intern (sub name hname)).1 s

end Store.Still

/-- A name in a text: that of a quote, or of a token that stands for a symbol. -/
def NamedIn (text : List Char) (name : String) : Prop :=
  ('\'' ∈ text ∧ name = "quote") ∨ ∃ token, IsToken text token ∧ TokenAtom token (.sym name)

section namedIn

variable {text rest : List Char} {name : String}

theorem NamedIn.of_resumes (h : NamedIn rest name) (resumes : Resumes text rest) :
    NamedIn text name := by
  rcases h with ⟨quote, rfl⟩ | ⟨token, isToken, symbol⟩
  · obtain ⟨before, rfl, -⟩ := resumes
    exact .inl ⟨List.mem_append_right before quote, rfl⟩
  · exact .inr ⟨token, isToken.of_resumes resumes, symbol⟩

theorem NamedIn.ne_nil (h : NamedIn text name) : name ≠ "nil" := by
  rcases h with ⟨-, rfl⟩ | ⟨token, -, symbol⟩
  · decide
  · exact fun hnil => symbol.named (congrArg _ hnil)

theorem resumes_skipBlanks (h : skipBlanks text = rest) : Resumes text rest := by
  obtain ⟨blanks, rfl, blank⟩ := exists_blanks_of_skipBlanks h
  exact resumes_of_blanks blank

theorem resumes_of_skipBlanks {c : Char} (h : skipBlanks text = c :: rest)
    (hc : isDelimiter c = true) : Resumes text rest :=
  (resumes_skipBlanks h).trans (@resumes_of_delimiter [] rest c hc)

theorem resumes_nil (text : List Char) : Resumes text [] :=
  ⟨text, (List.append_nil text).symm, .inr nofun⟩

end namedIn

structure AddsNamesIn (text : List Char) (names names' : List String) : Prop where
  keeps : ∀ name ∈ names, name ∈ names'
  only : ∀ name ∈ names', name ∈ names ∨ NamedIn text name

namespace AddsNamesIn
variable {text rest : List Char} {names names' names'' : List String}

theorem refl (text : List Char) (names : List String) : AddsNamesIn text names names :=
  ⟨fun _ h => h, fun _ h => .inl h⟩

theorem of_resumes (h : AddsNamesIn rest names names') (resumes : Resumes text rest) :
    AddsNamesIn text names names' :=
  ⟨h.keeps, fun name hname => (h.only name hname).imp_right (·.of_resumes resumes)⟩

theorem trans (h : AddsNamesIn text names names') (h' : AddsNamesIn text names' names'') :
    AddsNamesIn text names names'' :=
  ⟨fun name hname => h'.keeps name (h.keeps name hname),
    fun name hname => (h'.only name hname).elim (h.only name) .inr⟩

theorem cons {name : String} (h : AddsNamesIn text names names') (named : NamedIn text name) :
    AddsNamesIn text names (name :: names') := by
  refine ⟨fun n hn => List.mem_cons_of_mem name (h.keeps n hn), fun n hn => ?_⟩
  rcases List.mem_cons.1 hn with rfl | hn
  · exact .inr named
  · exact h.only n hn

end AddsNamesIn

/-- A reading has entered names in the text, those that its datum mentions among them. -/
def Reading.EntersIn {bound : List Char} (names : List String) (text : List Char) :
    Reading bound → Prop
  | .form names' d rest _ =>
    AddsNamesIn text names names' ∧ (∀ name ∈ mentioned d, name ∈ names') ∧ Resumes text rest
  | .overlong names' _ => AddsNamesIn text names names'

section reading

variable {bound text rest : List Char} {names : List String}

theorem Reading.EntersIn.of_resumes {r : Reading bound} (h : r.EntersIn names rest)
    (resumes : Resumes text rest) : r.EntersIn names text := by
  cases r with
  | form names' d rest' short =>
    obtain ⟨adds, mentions, resumes'⟩ := h
    exact ⟨adds.of_resumes resumes, mentions, resumes.trans resumes'⟩
  | overlong names' digits => exact AddsNamesIn.of_resumes h resumes

theorem entersIn_failure (names : List String) (text : List Char) (message : String) :
    (Reading.failure names message : Reading bound).EntersIn names text :=
  ⟨.refl text names, nofun, resumes_nil text⟩

theorem readToken_entersIn {c : Char} (names : List String) (hc : isDelimiter c = false)
    (short : ((c :: rest).dropWhile (fun c => !isDelimiter c)).length ≤ bound.length) :
    (readToken names (c :: rest) short).EntersIn names (c :: rest) := by
  obtain ⟨token, after, htoken, hafter, split, nonempty, run, ends⟩ := exists_token rest hc
  subst hafter
  unfold readToken
  rw [htoken]
  cases hclass : classify token with
  | error digits => exact AddsNamesIn.refl _ names
  | ok a =>
    refine ⟨?_, fun name hname => List.mem_append_left names hname, token, split, .inr ends⟩
    cases a with
    | sym name =>
      refine (AddsNamesIn.refl _ names).cons (.inr ⟨token, ?_, (classified_iff.1 hclass).1⟩)
      exact ⟨[], _, split, nonempty, run, nofun, ends⟩
    | _ => exact .refl _ names

mutual

theorem readForm_entersIn {bound : List Char} (names : List String) {text : List Char}
    (fits : text.length ≤ bound.length + 1) :
    (readForm bound names text fits).EntersIn names text := by
  obtain ⟨t, rest, starts⟩ := exists_starts text
  cases starts with
  | nothing h =>
    rw [readForm_end h]
    exact entersIn_failure names text _
  | closing h =>
    rw [readForm_close h]
    exact entersIn_failure names text _
  | opening h =>
    have shorter := length_lt_of_skipBlanks_eq h
    rw [readForm_open h]
    exact (readItems_entersIn names [] nofun _).of_resumes (resumes_of_skipBlanks h rfl)
  | quote h =>
    have shorter := length_lt_of_skipBlanks_eq h
    have resumes := resumes_of_skipBlanks h rfl
    have quote : NamedIn text "quote" := by
      obtain ⟨blanks, rfl, -⟩ := exists_blanks_of_skipBlanks h
      exact .inl ⟨by simp, rfl⟩
    have inner := readForm_entersIn names
      (Nat.le_trans (Nat.le_of_lt shorter) fits : rest.length ≤ bound.length + 1)
    rw [readForm_quote h]
    generalize readForm bound names rest _ = r at inner ⊢
    replace inner := inner.of_resumes resumes
    cases r with
    | form names' d rest' short =>
      obtain ⟨adds, mentions, resumes'⟩ := inner
      refine ⟨adds.cons quote, ?_, resumes'⟩
      simpa [quoted, mentioned, Atom.names] using fun n hn => .inr (mentions n hn)
    | overlong names' digits => exact inner
  | word hc h _ _ =>
    obtain ⟨short, read⟩ := readForm_token names h hc fits
    rw [read]
    exact (readToken_entersIn names hc short).of_resumes (resumes_skipBlanks h)
termination_by 2 * text.length

theorem readItems_entersIn {bound : List Char} (names : List String) (items : List Datum)
    {text : List Char} (known : ∀ d ∈ items, ∀ name ∈ mentioned d, name ∈ names)
    (fits : text.length ≤ bound.length + 1) :
    (readItems bound names items text fits).EntersIn names text := by
  cases h : skipBlanks text with
  | nil =>
    rw [readItems_end h]
    exact entersIn_failure names text _
  | cons c rest =>
    have shorter := length_lt_of_skipBlanks_eq h
    by_cases close : c = ')'
    · subst close
      rw [readItems_close h]
      refine ⟨.refl text names, fun name hname => ?_, resumes_of_skipBlanks h rfl⟩
      obtain ⟨d, hd, hmem⟩ := mem_mentioned_ofList.1 hname
      exact known d (List.mem_reverse.1 hd) name hmem
    · have first := readForm_entersIn names (Nat.le_refl _ : (c :: rest).length ≤ rest.length + 1)
      replace first := first.of_resumes (resumes_skipBlanks h)
      rw [readItems_item h close]
      generalize readForm rest names (c :: rest) _ = r at first ⊢
      cases r with
      | overlong names' digits => exact first
      | form names' d rest' short =>
        obtain ⟨adds, mentions, resumes⟩ := first
        simp only
        split
        · exact ⟨adds, mentions, resumes_nil text⟩
        have known' : ∀ e ∈ d :: items, ∀ name ∈ mentioned e, name ∈ names' :=
          List.forall_mem_cons.2 ⟨mentions, fun e he name hname =>
            adds.keeps name (known e he name hname)⟩
        have others := readItems_entersIn names' (d :: items) known'
          (by omega : rest'.length ≤ bound.length + 1)
        replace others := others.of_resumes resumes
        generalize readItems bound names' (d :: items) rest' _ = r at others ⊢
        cases r with
        | form _ _ _ _ => exact ⟨adds.trans others.1, others.2⟩
        | overlong _ _ => exact adds.trans others
termination_by 2 * text.length + 1
decreasing_by
  · rw [← h]
    have := length_skipBlanks_le text
    omega
  · omega

end

end reading

def Reading.names {bound : List Char} : Reading bound → List String
  | .form names _ _ _ => names
  | .overlong names _ => names

theorem length_le_succ (text : List Char) : text.length ≤ text.length + 1 := Nat.le_succ _

def namesRead (text : List Char) : List String :=
  (readForm text [] text (length_le_succ text)).names

section namesRead

variable {table : Nat} {text rest : List Char} {names : List String} {name : String} {d : Datum}
  {v : Value} {s s' u : Store}

theorem NamedIn.of_namesRead (h : name ∈ namesRead text) : NamedIn text name := by
  have enters := readForm_entersIn [] (Nat.le_succ text.length)
  unfold namesRead at h
  generalize readForm text [] text (Nat.le_succ _) = r at enters h
  cases r with
  | form names d rest short => exact (enters.1.only name h).resolve_left List.not_mem_nil
  | overlong names digits => exact (enters.only name h).resolve_left List.not_mem_nil

/-- The names that are entered for a datum without errors are those that it mentions. -/
theorem mem_namesRead_iff {short : rest.length ≤ text.length}
    (h : readForm text [] text (Nat.le_succ _) = .form names d rest short)
    (errorFree : ErrorFree d) : name ∈ namesRead text ↔ name ∈ mentioned d := by
  have follows := readForm_follows [] (Nat.le_succ text.length)
  rw [h] at follows
  rcases follows with ⟨-, enters⟩ | ⟨wrapped, -⟩
  · simpa [namesRead, h, Reading.names] using enters name
  · exact absurd errorFree wrapped.not_errorFree

/-- Reading a text leaves its names in the table, and no others that were not there. -/
theorem gains_read (hT : table < s.tables.size) (h : (read table text).Leaves s s') :
    Gains (namesRead text) s s' ∧ ∀ name ∈ namesRead text, s'.isInterned table name = true := by
  have enters := readForm_entersIn [] (Nat.le_succ text.length)
  have named : ∀ name ∈ namesRead text, name ≠ "nil" := fun name h =>
    (NamedIn.of_namesRead h).ne_nil
  have names : ∀ name ∈ namesRead text,
      (s.internAll table (namesRead text).reverse).isInterned table name = true := fun name hname =>
    (Store.isInterned_internAll hT _ name).2 (.inr ⟨List.mem_reverse.2 hname, named name hname⟩)
  have first : Gains (namesRead text) s (s.internAll table (namesRead text).reverse) :=
    (s.gains_internAll table _).mono fun name => List.mem_reverse.1
  unfold namesRead at enters names first ⊢
  generalize hform : readForm text [] text (Nat.le_succ _) = r at enters names first ⊢
  cases r with
  | form names' d rest short =>
    have second := (Store.gains_ofDatum (s.internAll table names'.reverse) table d).mono enters.2.1
    have run := @read_of_readForm table _ _ _ _ _ hform s
    rcases h with ⟨_, h⟩ | ⟨_, h⟩
    · cases run.symm.trans h
      exact ⟨first.trans second, fun name hname => second.isInterned (names name hname)⟩
    · cases run.symm.trans h
  | overlong names' digits =>
    have run := @read_of_overlong table _ _ _ hform s
    rcases h with ⟨_, h⟩ | ⟨_, h⟩
    · cases run.symm.trans h
    · cases run.symm.trans h
      exact ⟨first, names⟩

theorem isInterned_read (hT : table < s.tables.size) (h : (read table text).Leaves s s')
    (name : String) : s'.isInterned table name = true ↔
      s.isInterned table name = true ∨ name ∈ namesRead text := by
  obtain ⟨gains, entered⟩ := gains_read hT h
  exact ⟨gains.only table name, fun known => known.elim gains.isInterned (entered name)⟩

/-- Where a table has all names of a text, reading the text changes no table. -/
theorem tables_read (h : read table text s = .ok (v, rest) s')
    (known : ∀ name ∈ namesRead text, s.isInterned table name = true) : s'.tables = s.tables := by
  obtain ⟨names, d, short, hform⟩ := read_eq_ok h
  have enters := readForm_entersIn [] (Nat.le_succ text.length)
  have hnames : namesRead text = names := congrArg Reading.names hform
  rw [hform] at enters
  rw [hnames] at known
  cases (read_of_readForm hform s).symm.trans h
  have still : Store.Still table names s _ :=
    (Store.Still.internAll (fun name => List.mem_reverse.1) s).trans (.ofDatum enters.2.1 _)
  exact still known

/-- A text that has been read is read again to the same datum with the same symbols, and no table is
changed any more. -/
theorem read_again (hT : table < s.tables.size) (h : read table text s = .ok (v, rest) s')
    (denotes : Denotes s' table v d) (later : Extends s' u) (hu : table < u.tables.size) :
    ∃ v' u', read table text u = .ok (v', rest) u' ∧ u'.tables = u.tables ∧
      Denotes u' table v d ∧ Denotes u' table v' d := by
  obtain ⟨-, names, e, short, hform, unfolds, -⟩ := read_spec hT h
  cases denotes.unique unfolds.denotes
  obtain ⟨v', u', again, adds, unfolds'⟩ := read_of_form hu hform
  refine ⟨v', u', again, tables_read again fun name hname => later.isInterned ?_,
    denotes.grow (later.trans adds.toExtends), unfolds'.denotes⟩
  exact (gains_read hT (.inl ⟨_, h⟩)).2 name hname

end namesRead

end PocketLisp
