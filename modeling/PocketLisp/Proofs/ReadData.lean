import PocketLisp.Proofs.RunEquations
import PocketLisp.Proofs.StoreGrowth

/-!
# What is read in the store

The value of a datum that has been read unfolds to that datum, in new cells. The list that is
reversed in place holds cells of its own, apart from those of its elements, so the elements stay
what they are.
-/
namespace PocketLisp

/-- The value is the given tree: its cells are of the given kind, and at its ends it stands for the
atoms of the tree. -/
inductive Unfolds {α : Type} (s : Store) (leaf : Value → α → Prop) (within : Nat → Prop) :
    Value → Sexp α → Prop where
  | atom {v : Value} {a : α} (h : leaf v a) : Unfolds s leaf within v (.atom a)
  | cons {a : Nat} {x y : Value} {t u : Sexp α} (cell : s.cells[a]? = some ⟨x, y⟩) (kind : within a)
      (car : Unfolds s leaf within x t) (cdr : Unfolds s leaf within y u) :
      Unfolds s leaf within (.cons a) (.cons t u)

namespace Unfolds
variable {α : Type} {s s' : Store} {leaf leaf' : Value → α → Prop} {within within' : Nat → Prop}

theorem imp {v : Value} {t : Sexp α} (h : Unfolds s leaf within v t)
    (hleaf : ∀ (v : Value) (a : α), leaf v a → leaf' v a)
    (hcells : ∀ (a : Nat) (c : Cell), within a → s.cells[a]? = some c →
      within' a ∧ s'.cells[a]? = some c) : Unfolds s' leaf' within' v t := by
  induction h with
  | atom h => exact .atom (hleaf _ _ h)
  | cons cell kind _ _ ihCar ihCdr =>
    obtain ⟨kind', cell'⟩ := hcells _ _ kind cell
    exact .cons cell' kind' ihCar ihCdr

theorem of_chain {last v : Value} {cells : List Nat} {xs : List Value} {ts : List (Sexp α)}
    {t : Sexp α} (h : Chain s last v cells xs) (kind : ∀ a ∈ cells, within a)
    (elements : List.Forall₂ (Unfolds s leaf within) xs ts) (rest : Unfolds s leaf within last t) :
    Unfolds s leaf within v (ts.foldr .cons t) := by
  induction h generalizing ts with
  | nil =>
    cases elements
    exact rest
  | cons cell _ ih =>
    cases elements with
    | cons first others =>
      exact .cons cell (kind _ (by simp)) first
        (ih (fun a ha => kind a (List.mem_cons_of_mem _ ha)) others)

end Unfolds

namespace Store

/-- The value is what the atom becomes in the store; for a name, it is what interning the name gives
without adding anything to the table. -/
def IsEntered (s : Store) (table : Nat) (v : Value) : Atom → Prop
  | .nil => v = .nil
  | .num n => ∃ serial, v = .num serial n
  | .sym name => s.intern table name = (v, s)
  | .error message => ∃ serial, v = .error serial message

theorem intern_of_none {s : Store} {table : Nat} {name : String}
    (h : s.findSymbol? table name = none) (hn : name ≠ "nil") :
    s.intern table name = (.sym ⟨s.nextSerial, name⟩,
      ⟨s.cells, s.closures, s.tables.modify table (⟨s.nextSerial, name⟩ :: ·), s.nextSerial + 1,
        s.journal⟩) := by
  simp [intern, h, hn]

theorem intern_eq_self_iff {s : Store} {table : Nat} {name : String} {v : Value} :
    s.intern table name = (v, s) ↔
      (name = "nil" ∧ v = .nil) ∨
        (name ≠ "nil" ∧ ∃ sym, s.findSymbol? table name = some sym ∧ v = .sym sym) := by
  by_cases hnil : name = "nil"
  · simp [intern, hnil, eq_comm]
  · cases hfind : s.findSymbol? table name with
    | some sym => simp [intern_of_findSymbol? hfind hnil, hnil, eq_comm]
    | none =>
      -- A new symbol takes a serial number, so the store is another one.
      have hne : s.intern table name ≠ (v, s) := by
        rw [intern_of_none hfind hnil]
        intro h
        have := congrArg (fun r => r.2.nextSerial) h
        simp at this
      simp [hne, hnil]

theorem IsEntered.grow {s s' : Store} {table : Nat} {v : Value} {a : Atom}
    (h : s.IsEntered table v a) (hs : ∀ (t : Nat) (name : String) (sym : Symbol),
      s.findSymbol? t name = some sym → s'.findSymbol? t name = some sym) :
    s'.IsEntered table v a := by
  cases a with
  | sym name =>
    refine intern_eq_self_iff.2 ?_
    rcases intern_eq_self_iff.1 h with h | ⟨hne, sym, hfind, hv⟩
    · exact .inl h
    · exact .inr ⟨hne, sym, hs table name sym hfind, hv⟩
  | _ => exact h

theorem intern_intern {s : Store} {table : Nat} (hT : table < s.tables.size) (name : String) :
    (s.intern table name).2.intern table name = s.intern table name := by
  by_cases hnil : name = "nil"
  · simp [intern, hnil]
  · cases hfind : s.findSymbol? table name with
    | some sym =>
      have h := intern_of_findSymbol? hfind hnil
      rw [h, h]
    | none =>
      rw [intern_of_none hfind hnil]
      refine intern_of_findSymbol? ?_ hnil
      simp [findSymbol?, symbols, Array.getElem_modify, hT]

theorem ofAtom_spec {s : Store} {table : Nat} (hT : table < s.tables.size) (a : Atom) :
    AddsData s (s.ofAtom table a).2 ∧ (s.ofAtom table a).2.cells = s.cells ∧
      (s.ofAtom table a).2.IsEntered table (s.ofAtom table a).1 a ∧
      (s.ofAtom table a).2.cell? (s.ofAtom table a).1 = none := by
  cases a with
  | nil => exact ⟨.refl s, rfl, rfl, rfl⟩
  | num n => exact ⟨(allocates_num s n).addsData, rfl, ⟨s.nextSerial, rfl⟩, rfl⟩
  | sym name =>
    refine ⟨addsData_intern s table name, cells_intern s table name, intern_intern hT name, ?_⟩
    have own : (s.intern table name).1 = .nil ∨ ∃ sym, (s.intern table name).1 = .sym sym := by
      rcases intern_eq_self_iff.1 (intern_intern hT name) with ⟨-, h⟩ | ⟨-, sym, -, h⟩
      · exact .inl h
      · exact .inr ⟨sym, h⟩
    rcases own with h | ⟨sym, h⟩
    · exact congrArg _ h
    · exact congrArg _ h
  | error message => exact ⟨(allocates_error s message).addsData, rfl, ⟨s.nextSerial, rfl⟩, rfl⟩

section datum

variable (table : Nat)

/-- What building a datum in a store gives: the value of the datum, in cells that were not there
before. -/
def Builds (s : Store) (d : Datum) : Prop :=
  AddsData s (ofDatum table d s).2 ∧
    Unfolds (ofDatum table d s).2 ((ofDatum table d s).2.IsEntered table) (s.cells.size ≤ ·)
      (ofDatum table d s).1 d

/-- What is known of a list under construction, latest element first: all has been added to the
store `base`, and no element has a cell of the list itself. -/
structure Collected (base s : Store) (done : Value) (cells : List Nat) (ts : List Datum) :
    Prop where
  grow : AddsData base s
  distinct : cells.Nodup
  new : ∀ a ∈ cells, base.cells.size ≤ a
  elements : ∃ xs, Chain s .nil done cells xs ∧ List.Forall₂
    (Unfolds s (s.IsEntered table) (fun a => base.cells.size ≤ a ∧ a ∉ cells)) xs ts

variable {table}

/-- A further element, made of cells that are newer than the list. -/
theorem Collected.push {base s t : Store} {done v : Value} {cells : List Nat} {ts : List Datum}
    {d : Datum} (h : Collected table base s done cells ts) (grow : AddsData s t)
    (element : Unfolds t (t.IsEntered table) (s.cells.size ≤ ·) v d) :
    Collected table base (t.cons v done).2 (t.cons v done).1 (t.cells.size :: cells) (d :: ts) := by
  obtain ⟨xs, chain, elements⟩ := h.elements
  have hbase := h.grow.size_le
  have hsize := grow.size_le
  have growCons := allocates_cons t v done
  have old : ∀ a ∈ cells, a < s.cells.size := chain.lt_size
  have atoms : ∀ (w : Value) (a : Atom), t.IsEntered table w a →
      (t.cons v done).2.IsEntered table w a := fun w a hw => hw.grow growCons.toExtends.symbols
  refine ⟨(h.grow.trans grow).trans growCons.addsData,
    List.nodup_cons.2 ⟨fun hmem => ?_, h.distinct⟩, fun a ha => ?_,
    v :: xs, .cons (getElem?_cons_self t v done) ?_, .cons ?_ ?_⟩
  · have := old _ hmem
    omega
  · rcases List.mem_cons.1 ha with rfl | ha
    · omega
    · exact h.new a ha
  · exact chain.congr fun a ha => (growCons.cells a (Nat.lt_of_lt_of_le (old a ha) hsize)).trans
      (grow.getElem?_of_lt (old a ha))
  · refine element.imp atoms fun a c hlow hc => ⟨⟨Nat.le_trans hbase hlow, fun hmem => ?_⟩,
      growCons.toExtends.cells a c hc⟩
    have hlt := (Array.getElem?_eq_some_iff.1 hc).1
    rcases List.mem_cons.1 hmem with rfl | hmem
    · omega
    · have := old a hmem
      omega
  · refine elements.imp fun x u hx => hx.imp (fun w a hw => ?_) fun a c ha hc => ?_
    · exact atoms w a (hw.grow grow.symbols)
    · have hlt := (Array.getElem?_eq_some_iff.1 hc).1
      refine ⟨⟨ha.1, fun hmem => ?_⟩, growCons.toExtends.cells a c (grow.cells a c hc)⟩
      rcases List.mem_cons.1 hmem with rfl | hmem
      · omega
      · exact ha.2 hmem

/-- Reversing a list that has been collected puts its elements in order in front of an atom. -/
theorem Collected.reverse {base s t : Store} {done last : Value} {cells : List Nat}
    {ts : List Datum} {a : Atom} (h : Collected table base s done cells ts) (grow : AddsData s t)
    (same : t.cells = s.cells) (atom : t.IsEntered table last a) :
    AddsData base (reverseOnto t.cells.size done last t).2 ∧
      Unfolds (reverseOnto t.cells.size done last t).2
        ((reverseOnto t.cells.size done last t).2.IsEntered table) (base.cells.size ≤ ·)
        (reverseOnto t.cells.size done last t).1 (ts.foldl (fun d t => .cons t d) (.atom a)) := by
  obtain ⟨xs, chain, elements⟩ := h.elements
  have chain' : Chain t .nil done cells xs := chain.congr fun a _ => by rw [same]
  have enough : cells.length ≤ t.cells.size := chain'.length_le h.distinct
  obtain ⟨turned, relinks, frame⟩ :=
    reverseOnto_chain chain' rfl h.distinct (Chain.nil : Chain t last last [] []) (by simp) enough
  rw [List.append_nil, List.append_nil] at turned
  have symbols : ∀ (n : Nat) (name : String) (sym : Symbol), t.findSymbol? n name = some sym →
      (reverseOnto t.cells.size done last t).2.findSymbol? n name = some sym := by
    intro n name sym hsym
    simpa only [findSymbol?, Store.symbols, relinks.tables] using hsym
  refine ⟨⟨⟨fun b c hc => ?_, fun k c hc => ?_, fun n name sym hsym => ?_⟩, ?_, ?_⟩, ?_⟩
  · have hlt := (Array.getElem?_eq_some_iff.1 hc).1
    have houtside : b ∉ cells := fun hmem => by
      have := h.new b hmem
      omega
    rw [frame b houtside, same]
    exact h.grow.cells b c hc
  · rw [relinks.closures, grow.sameClosures]
    exact h.grow.closures k c hc
  · exact symbols n name sym (grow.symbols n name sym (h.grow.symbols n name sym hsym))
  · rw [relinks.closures, grow.sameClosures, h.grow.sameClosures]
  · rw [relinks.tables, grow.tableCount, h.grow.tableCount]
  · rw [← List.foldr_reverse]
    refine .of_chain turned (fun b hb => h.new b (List.mem_reverse.1 hb)) ?_
      (.atom (atom.grow symbols))
    refine List.rel_reverse (elements.imp fun x u hx => ?_)
    refine hx.imp (fun w b hw => ?_) fun b c hb hc => ?_
    · exact (hw.grow grow.symbols).grow symbols
    · rw [frame b hb.2, same]
      exact ⟨hb.1, hc⟩

/-- What the rest of a list under construction comes to: the whole list. -/
def Completes (table : Nat) (base s : Store) (done : Value) (ts : List Datum) (d : Datum) : Prop :=
  AddsData base (ofTail table d done s).2 ∧
    Unfolds (ofTail table d done s).2 ((ofTail table d done s).2.IsEntered table)
      (base.cells.size ≤ ·) (ofTail table d done s).1 (ts.foldl (fun d t => .cons t d) d)

private theorem ofDatum_builds_and_completes (d : Datum) :
    (∀ s : Store, table < s.tables.size → Builds table s d) ∧
      ∀ (base s : Store) (done : Value) (cells : List Nat) (ts : List Datum),
        Collected table base s done cells ts → table < s.tables.size →
        Completes table base s done ts d := by
  induction d with
  | atom a =>
    constructor
    · intro s hT
      obtain ⟨grow, -, atom, -⟩ := ofAtom_spec hT a
      exact ⟨grow, .atom atom⟩
    · intro base s done cells ts collected hT
      obtain ⟨grow, same, atom, -⟩ := ofAtom_spec hT a
      exact collected.reverse grow same atom
  | cons a d iha ihd =>
    constructor
    · intro s hT
      obtain ⟨grow, element⟩ := iha.1 s hT
      have start : Collected table s s .nil [] [] :=
        ⟨.refl s, .nil, by simp, [], .nil, .nil⟩
      have first := start.push grow element
      exact ihd.2 s _ _ _ _ first (by rw [first.grow.tableCount]; exact hT)
    · intro base s done cells ts collected hT
      obtain ⟨grow, element⟩ := iha.1 s hT
      have next := collected.push grow element
      refine ihd.2 base _ _ _ _ next ?_
      rw [next.grow.tableCount, ← collected.grow.tableCount]
      exact hT

/-- A datum is built from new cells, and its value is that datum. -/
theorem ofDatum_builds {s : Store} (hT : table < s.tables.size) (d : Datum) : Builds table s d :=
  (ofDatum_builds_and_completes d).1 s hT

end datum

end Store

/-- The value is the atom, and a symbol is the one that the table has for its name. -/
def Store.IsAtom (s : Store) (table : Nat) (v : Value) : Atom → Prop
  | .nil => v = .nil
  | .num n => ∃ serial, v = .num serial n
  | .sym name => ∃ sym, v = .sym sym ∧ s.findSymbol? table name = some sym
  | .error message => ∃ serial, v = .error serial message

/-- The value is the datum, with the symbols that the table has. -/
def Denotes (s : Store) (table : Nat) (v : Value) (d : Datum) : Prop :=
  Unfolds s (s.IsAtom table) (fun _ => True) v d

theorem Store.name_of_findSymbol? {s : Store} {table : Nat} {name : String} {sym : Symbol}
    (h : s.findSymbol? table name = some sym) : sym.name = name := by
  simpa using List.find?_some h

theorem Store.not_isAtom_cons {s : Store} {table a : Nat} {b : Atom} :
    ¬s.IsAtom table (.cons a) b := by
  intro h
  cases b <;> simp [IsAtom] at h

theorem Store.IsAtom.unique {s : Store} {table : Nat} {v : Value} {a b : Atom}
    (ha : s.IsAtom table v a) (hb : s.IsAtom table v b) : a = b := by
  cases a with
  | nil =>
    subst ha
    cases b with
    | nil => rfl
    | _ => obtain ⟨_, h⟩ := hb; simp at h
  | num n =>
    obtain ⟨serial, rfl⟩ := ha
    cases b with
    | nil => cases hb
    | num m => obtain ⟨_, h⟩ := hb; cases h; rfl
    | _ => obtain ⟨_, h⟩ := hb; simp at h
  | sym name =>
    obtain ⟨sym, rfl, hsym⟩ := ha
    cases b with
    | nil => cases hb
    | sym name' =>
      obtain ⟨_, h, hsym'⟩ := hb
      cases h
      rw [← name_of_findSymbol? hsym, name_of_findSymbol? hsym']
    | _ => obtain ⟨_, h⟩ := hb; simp at h
  | error message =>
    obtain ⟨serial, rfl⟩ := ha
    cases b with
    | nil => cases hb
    | error message' => obtain ⟨_, h⟩ := hb; cases h; rfl
    | _ => obtain ⟨_, h⟩ := hb; simp at h

namespace Denotes
variable {s s' : Store} {table : Nat} {v : Value} {d d' : Datum}

theorem grow (h : Denotes s table v d) (hs : Extends s s') : Denotes s' table v d := by
  refine h.imp (fun w a hw => ?_) fun a c ha hc => ⟨ha, hs.cells a c hc⟩
  cases a with
  | sym name =>
    obtain ⟨sym, hw, hsym⟩ := hw
    exact ⟨sym, hw, hs.symbols table name sym hsym⟩
  | _ => exact hw

theorem unique (h : Denotes s table v d) (h' : Denotes s table v d') : d = d' := by
  induction h generalizing d' with
  | atom ha =>
    cases h' with
    | atom hb => rw [ha.unique hb]
    | cons _ _ _ _ => exact absurd ha Store.not_isAtom_cons
  | cons cell _ _ _ ihCar ihCdr =>
    cases h' with
    | atom hb => exact absurd hb Store.not_isAtom_cons
    | cons cell' _ car cdr =>
      cases cell.symm.trans cell'
      rw [ihCar car, ihCdr cdr]

end Denotes

def Sexp.All {α : Type} (p : α → Prop) : Sexp α → Prop
  | .atom a => p a
  | .cons a d => a.All p ∧ d.All p

instance Sexp.decidableAll {α : Type} (p : α → Prop) [DecidablePred p] :
    (t : Sexp α) → Decidable (t.All p)
  | .atom a => inferInstanceAs (Decidable (p a))
  | .cons a d => @instDecidableAnd _ _ (decidableAll p a) (decidableAll p d)

/-- No symbol of the datum has the name of the empty list. -/
def Named (d : Datum) : Prop := d.All fun a => a ≠ .sym "nil"

/-- What has been entered is the atom itself, unless a name stands for the empty list. -/
theorem Store.IsEntered.isAtom {s : Store} {table : Nat} {v : Value} {a : Atom}
    (h : s.IsEntered table v a) (named : a ≠ .sym "nil") : s.IsAtom table v a := by
  cases a with
  | sym name =>
    rcases Store.intern_eq_self_iff.1 h with ⟨hnil, -⟩ | ⟨-, sym, hsym, hv⟩
    · exact absurd (congrArg _ hnil) named
    · exact ⟨sym, hv, hsym⟩
  | _ => exact h

theorem Unfolds.named {s : Store} {table : Nat} {within : Nat → Prop} {v : Value} {d : Datum}
    (h : Unfolds s (s.IsEntered table) within v d) (named : Named d) :
    Unfolds s (s.IsAtom table) within v d := by
  induction h with
  | atom entered => exact .atom (entered.isAtom named)
  | cons cell kind _ _ ihCar ihCdr => exact .cons cell kind (ihCar named.1) (ihCdr named.2)

theorem Unfolds.denotes {s : Store} {table : Nat} {within : Nat → Prop} {v : Value} {d : Datum}
    (h : Unfolds s (s.IsAtom table) within v d) : Denotes s table v d :=
  h.imp (fun _ _ atom => atom) fun _ _ _ cell => ⟨trivial, cell⟩

/-- What has been read adds its value to the store, in new cells, or nothing but names if a numeral
is too long. -/
theorem Reading.store_spec {bound : List Char} (r : Reading bound) {table : Nat} {s : Store}
    (hT : table < s.tables.size) :
    match r with
    | .form _ d rest _ => ∃ v s', r.store table s = .ok (v, rest) s' ∧ AddsData s s' ∧
        (Named d → Unfolds s' (s'.IsAtom table) (s.cells.size ≤ ·) v d)
    | .overlong _ digits => ∃ s', r.store table s = .error (.fault (.overlong digits)) s' ∧
        AddsData s s' := by
  cases r with
  | form names d rest short =>
    have grow := s.addsData_internAll table names.reverse
    have hT' : table < (s.internAll table names.reverse).tables.size := by
      rw [grow.tableCount]
      exact hT
    obtain ⟨grow', built⟩ := Store.ofDatum_builds hT' d
    refine ⟨_, _, rfl, grow.trans grow', ?_⟩
    intro named
    exact (built.named named).imp (fun _ _ atom => atom) fun a c hlow cell =>
      ⟨Nat.le_trans grow.size_le hlow, cell⟩
  | overlong names digits =>
    exact ⟨_, rfl, s.addsData_internAll table names.reverse⟩

/-- Reading enters the names of the text into the table and builds what has been read. -/
theorem read_of_readForm {table : Nat} {text rest : List Char} {names : List String} {d : Datum}
    {short : rest.length ≤ text.length}
    (h : readForm text [] text (Nat.le_succ _) = .form names d rest short) (s : Store) :
    read table text s = .ok ((Store.ofDatum table d (s.internAll table names.reverse)).1, rest)
      (Store.ofDatum table d (s.internAll table names.reverse)).2 := by
  rw [read, h]
  rfl

/-- Reading up to an overlong numeral enters the names in front of it into the table. -/
theorem read_of_overlong {table : Nat} {text : List Char} {names : List String} {digits : Nat}
    (h : readForm text [] text (Nat.le_succ _) = .overlong names digits) (s : Store) :
    read table text s =
      .error (.fault (.overlong digits)) (s.internAll table names.reverse) := by
  rw [read, h]
  rfl

theorem read_eq_ok {table : Nat} {text rest : List Char} {v : Value} {s s' : Store}
    (h : read table text s = .ok (v, rest) s') : ∃ names d short,
      readForm text [] text (Nat.le_succ _) = .form names d rest short := by
  cases hform : readForm text [] text (Nat.le_succ _) with
  | form names d rest' short =>
    cases (read_of_readForm hform s).symm.trans h
    exact ⟨names, d, short, rfl⟩
  | overlong names digits => cases (read_of_overlong hform s).symm.trans h

theorem read_eq_error {table : Nat} {text : List Char} {stop : Stop} {s s' : Store}
    (h : read table text s = .error stop s') : ∃ names digits,
      readForm text [] text (Nat.le_succ _) = .overlong names digits ∧
        stop = .fault (.overlong digits) ∧ s' = s.internAll table names.reverse := by
  cases hform : readForm text [] text (Nat.le_succ _) with
  | form names d rest short => cases (read_of_readForm hform s).symm.trans h
  | overlong names digits =>
    cases (read_of_overlong hform s).symm.trans h
    exact ⟨names, digits, rfl, rfl, rfl⟩

end PocketLisp
