import PocketLisp.Proofs.EnvironmentRoots
import PocketLisp.Proofs.LineFaults
import PocketLisp.Proofs.StoreTrees

/-!
# Data and the cells of environments

A value is data if it is a finite tree of cells. The cells of a session are of two kinds: those of
data, which are never changed again once they are there, and those of the frame lists of
environments, which lead to the one cell of the global frame. Lists that are reversed in place while
they are built hold their elements apart from their own cells, so they become data when they are
done. Only the global frame is changed after that, and data never goes through its cell.
-/
namespace PocketLisp

/-- The value is a finite tree, all cells of which are of the given kind. -/
inductive IsData (kind : Nat → Prop) (s : Store) : Value → Prop where
  | atom {v : Value} (h : ∀ a, v ≠ .cons a) : IsData kind s v
  | cell {a : Nat} {x y : Value} (cell : s.cells[a]? = some ⟨x, y⟩) (own : kind a)
      (car : IsData kind s x) (cdr : IsData kind s y) : IsData kind s (.cons a)

namespace IsData
variable {kind kind' : Nat → Prop} {s t : Store} {v w : Value}

theorem imp (h : IsData kind s v) (keep : ∀ a c, kind a → s.cells[a]? = some c →
    kind' a ∧ t.cells[a]? = some c) : IsData kind' t v := by
  induction h with
  | atom h => exact .atom h
  | cell cell own _ _ ihCar ihCdr =>
    obtain ⟨own', cell'⟩ := keep _ _ own cell
    exact .cell cell' own' ihCar ihCdr

theorem mono (h : IsData kind s v) (sub : ∀ a, kind a → kind' a) : IsData kind' s v :=
  h.imp fun a _ own cell => ⟨sub a own, cell⟩

theorem extend (h : IsData kind s v) (grow : Extends s t) : IsData kind t v :=
  h.imp fun a c own cell => ⟨own, grow.cells a c cell⟩

/-- Data whose cells were there before a store has grown has none of the new cells. -/
theorem old (h : IsData kind s v) (grow : Extends s t) :
    IsData (fun a => kind a ∧ a < s.cells.size) t v :=
  h.imp fun a c own cell =>
    ⟨⟨own, (Array.getElem?_eq_some_iff.1 cell).1⟩, grow.cells a c cell⟩

theorem car (h : IsData kind s v) : IsData kind s (s.car v) := by
  cases h with
  | @atom v h =>
    cases v with
    | cons a => exact absurd rfl (h a)
    | _ => exact .atom nofun
  | cell cell _ car _ => simpa [Store.car, Store.cell?, cell] using car

theorem cdr (h : IsData kind s v) : IsData kind s (s.cdr v) := by
  cases h with
  | @atom v h =>
    cases v with
    | cons a => exact absurd rfl (h a)
    | _ => exact .atom nofun
  | cell cell _ _ cdr => simpa [Store.cdr, Store.cell?, cell] using cdr

theorem parts {a : Nat} {x y : Value} (h : IsData kind s (.cons a))
    (cell : s.cells[a]? = some ⟨x, y⟩) : IsData kind s x ∧ IsData kind s y := by
  cases h with
  | atom h => exact absurd rfl (h a)
  | cell cell' _ car cdr =>
    cases cell.symm.trans cell'
    exact ⟨car, cdr⟩

/-- The cells along the cdrs of data end in something that is no cell. -/
theorem chain (h : IsData kind s v) : ∃ last cells xs, Chain s last v cells xs ∧
    (∀ a, last ≠ .cons a) ∧ (∀ a ∈ cells, kind a) ∧ ∀ x ∈ xs, IsData kind s x := by
  induction h with
  | @atom v h => exact ⟨v, [], [], .nil, h, List.forall_mem_nil _, List.forall_mem_nil _⟩
  | cell cell own car _ _ ih =>
    obtain ⟨last, cells, xs, chain, ends, kinds, elements⟩ := ih
    exact ⟨last, _, _, .cons cell chain, ends, List.forall_mem_cons.2 ⟨own, kinds⟩,
      List.forall_mem_cons.2 ⟨car, elements⟩⟩

theorem cell?_eq_none (ends : ∀ a, v ≠ .cons a) : s.cell? v = none := by
  cases v with
  | cons a => exact absurd rfl (ends a)
  | _ => rfl

theorem elements (h : IsData kind s v) : ∀ x ∈ s.elements v, IsData kind s x := by
  obtain ⟨last, cells, xs, chain, ends, -, elements⟩ := h.chain
  rw [chain.elements_eq (cell?_eq_none ends)]
  exact elements

/-- A chain of data that ends in data is data, and so are its cells. -/
theorem of_chain {last : Value} {cells : List Nat} {xs : List Value}
    (h : Chain s last v cells xs) (kinds : ∀ a ∈ cells, kind a)
    (elements : ∀ x ∈ xs, IsData kind s x) (hlast : IsData kind s last) :
    IsData kind s v ∧ ∀ a ∈ cells, IsData kind s (.cons a) := by
  induction h with
  | nil => exact ⟨hlast, List.forall_mem_nil _⟩
  | cons cell _ ih =>
    obtain ⟨own, kinds⟩ := List.forall_mem_cons.1 kinds
    obtain ⟨car, elements⟩ := List.forall_mem_cons.1 elements
    obtain ⟨cdr, others⟩ := ih kinds elements
    have first := IsData.cell cell own car cdr
    exact ⟨first, List.forall_mem_cons.2 ⟨first, others⟩⟩

/-- The tree of data, whose leaves are values that name no cell. -/
theorem exists_tree (h : IsData kind s v) : ∃ t, Unfolds s s.IsLeaf kind v t := by
  induction h with
  | atom h => exact ⟨_, .atom ⟨rfl, cell?_eq_none h⟩⟩
  | cell cell own _ _ ihCar ihCdr =>
    obtain ⟨t, ihCar⟩ := ihCar
    obtain ⟨u, ihCdr⟩ := ihCdr
    exact ⟨_, .cons cell own ihCar ihCdr⟩

end IsData

/-- Relinking new cells adds no change to what was there before. -/
theorem AddsData.relink {s t u : Store} (h : AddsData s t) (relinks : Relinks t u)
    (frame : ∀ a < s.cells.size, u.cells[a]? = t.cells[a]?) : AddsData s u where
  cells a c cell := (frame a (Array.getElem?_eq_some_iff.1 cell).1).trans (h.cells a c cell)
  closures k c closure := relinks.closures ▸ h.closures k c closure
  symbols n name sym found := by
    simpa only [Store.findSymbol?, Store.symbols, relinks.tables] using h.symbols n name sym found
  sameClosures := relinks.closures.trans h.sameClosures
  tableCount := by rw [relinks.tables, h.tableCount]

/-- The second store has what the first one has, and all its further cells are data. -/
structure Fills (kind : Nat → Prop) (s t : Store) : Prop extends AddsData s t where
  filled : ∀ a, s.IsNew t a → IsData kind t (.cons a)

namespace Fills
variable {kind kind' : Nat → Prop} {s t u : Store}

theorem of_cells (adds : AddsData s t) (same : t.cells = s.cells) : Fills kind s t := by
  refine ⟨adds, fun a ha => ?_⟩
  have size : t.cells.size = s.cells.size := by rw [same]
  have := ha.1
  have := ha.2
  omega

theorem trans (h : Fills kind s t) (h' : Fills kind t u) : Fills kind s u := by
  refine ⟨h.toAddsData.trans h'.toAddsData, fun a ha => ?_⟩
  -- A new cell is from the first addition or from the second one.
  by_cases old : a < t.cells.size
  · exact (h.filled a ⟨ha.1, old⟩).extend h'.toExtends
  · exact h'.filled a ⟨Nat.le_of_not_lt old, ha.2⟩

theorem mono (h : Fills kind s t) (sub : ∀ a, kind a → kind' a) : Fills kind' s t :=
  ⟨h.toAddsData, fun a ha => (h.filled a ha).mono sub⟩

theorem cons {x y : Value} (hx : IsData kind s x) (hy : IsData kind s y)
    (own : kind s.cells.size) :
    Fills kind s (s.cons x y).2 ∧ IsData kind (s.cons x y).2 (s.cons x y).1 := by
  have grow := s.allocates_cons x y
  have cell : IsData kind (s.cons x y).2 (s.cons x y).1 :=
    .cell (Store.getElem?_cons_self s x y) own (hx.extend grow.toExtends) (hy.extend grow.toExtends)
  refine ⟨⟨grow.addsData, fun a ha => ?_⟩, cell⟩
  have size := s.size_cons x y
  have low := ha.1
  have high := ha.2
  obtain rfl : a = s.cells.size := by omega
  exact cell

end Fills

/-- A list under construction in the cells `cells`: everything else that has been added to the store
`base` is data apart from these cells. -/
structure Gathered (kind : Nat → Prop) (base s : Store) (done : Value) (cells : List Nat) :
    Prop where
  grow : AddsData base s
  own : ∀ a ∈ cells, base.cells.size ≤ a ∧ kind a
  chain : ∃ xs, Chain s .nil done cells xs ∧
    ∀ x ∈ xs, IsData (fun a => kind a ∧ a ∉ cells) s x
  others : ∀ a, base.IsNew s a → a ∈ cells ∨ IsData (fun b => kind b ∧ b ∉ cells) s (.cons a)

namespace Gathered
variable {kind : Nat → Prop} {base s t : Store} {done last v : Value} {cells : List Nat}

theorem start (kind : Nat → Prop) (s : Store) : Gathered kind s s .nil [] where
  grow := .refl s
  own := List.forall_mem_nil _
  chain := ⟨[], .nil, List.forall_mem_nil _⟩
  others a ha := by
    have := ha.1
    have := ha.2
    omega

theorem lt_size (h : Gathered kind base s done cells) : ∀ a ∈ cells, a < s.cells.size := by
  obtain ⟨xs, chain, -⟩ := h.chain
  exact chain.lt_size

theorem apart (h : Gathered kind base s done cells) (hv : IsData kind base v) :
    IsData (fun a => kind a ∧ a ∉ cells) s v := by
  refine (hv.old h.grow.toExtends).mono fun a ha => ⟨ha.1, fun hmem => ?_⟩
  have := (h.own a hmem).1
  have := ha.2
  omega

theorem outside (h : Gathered kind base s done cells) {a : Nat} (ha : s.cells.size ≤ a) :
    base.cells.size ≤ a ∧ a ∉ cells :=
  ⟨Nat.le_trans h.grow.size_le ha, fun hmem => absurd (h.lt_size a hmem) (Nat.not_lt.2 ha)⟩

theorem push (h : Gathered kind base s done cells)
    (fill : Fills (fun a => kind a ∧ a ∉ cells) s t)
    (element : IsData (fun a => kind a ∧ a ∉ cells) t v) (own : kind t.cells.size) :
    Gathered kind base (t.cons v done).2 (t.cons v done).1 (t.cells.size :: cells) := by
  obtain ⟨xs, chain, elements⟩ := h.chain
  have hbase := h.grow.size_le
  have hsize := fill.size_le
  have growCons := t.allocates_cons v done
  have keep : ∀ {x : Value}, IsData (fun a => kind a ∧ a ∉ cells) t x →
      IsData (fun a => kind a ∧ a ∉ t.cells.size :: cells) (t.cons v done).2 x := by
    intro x hx
    refine (hx.old growCons.toExtends).mono fun a ha => ⟨ha.1.1, fun hmem => ?_⟩
    rcases List.mem_cons.1 hmem with rfl | hmem
    · exact absurd ha.2 (Nat.lt_irrefl _)
    · exact ha.1.2 hmem
  refine ⟨(h.grow.trans fill.toAddsData).trans growCons.addsData,
    List.forall_mem_cons.2 ⟨⟨Nat.le_trans hbase hsize, own⟩, h.own⟩,
    ⟨v :: xs, .cons (t.getElem?_cons_self v done) ?_, ?_⟩, fun a ha => ?_⟩
  · refine chain.congr fun a ha => ?_
    have old := h.lt_size a ha
    exact (growCons.cells a (by omega)).trans (fill.getElem?_of_lt old)
  · exact List.forall_mem_cons.2 ⟨keep element, fun x hx => keep ((elements x hx).extend
      fill.toExtends)⟩
  · have size := t.size_cons v done
    have low := ha.1
    have high := ha.2
    -- The new cell is that of the list, or comes from the list so far, or from the new element.
    by_cases last : a = t.cells.size
    · exact .inl (last ▸ List.mem_cons_self)
    · by_cases old : a < s.cells.size
      · rcases h.others a ⟨low, old⟩ with hmem | data
        · exact .inl (List.mem_cons_of_mem _ hmem)
        · exact .inr (keep (data.extend fill.toExtends))
      · exact .inr (keep (fill.filled a ⟨by omega, by omega⟩))

/-- When the list is done, it is reversed in place in front of a value that is no cell, and becomes
data with all that has been added for it. -/
theorem finish (h : Gathered kind base s done cells) (grow : AddsData s t)
    (same : t.cells = s.cells) (hlast : ∀ a, last ≠ .cons a) :
    Fills kind base (Store.reverseOnto t.cells.size done last t).2 ∧
      IsData kind (Store.reverseOnto t.cells.size done last t).2
        (Store.reverseOnto t.cells.size done last t).1 := by
  obtain ⟨xs, chain, elements⟩ := h.chain
  have chain' : Chain t .nil done cells xs := chain.congr fun a _ => by rw [same]
  have distinct := chain'.nodup rfl
  obtain ⟨turned, relinks, frame⟩ := Store.reverseOnto_chain chain' rfl distinct
    (Chain.nil : Chain t last last [] []) (by simp) (chain'.length_le distinct)
  rw [List.append_nil, List.append_nil] at turned
  -- Outside of the list nothing has been relinked, so what is apart from it is still there.
  have keep : ∀ {x : Value}, IsData (fun a => kind a ∧ a ∉ cells) s x →
      IsData kind (Store.reverseOnto t.cells.size done last t).2 x := fun hx =>
    hx.imp fun a c own cell => ⟨own.1, by rw [frame a own.2, same, cell]⟩
  obtain ⟨list, own⟩ := IsData.of_chain turned
    (fun a ha => (h.own a (List.mem_reverse.1 ha)).2)
    (fun x hx => keep (elements x (List.mem_reverse.1 hx))) (.atom hlast)
  refine ⟨⟨(h.grow.trans grow).relink relinks fun a ha => frame a fun hmem => ?_, fun a ha => ?_⟩,
    list⟩
  · have := (h.own a hmem).1
    omega
  · have low := ha.1
    have high := ha.2
    rw [relinks.size, same] at high
    rcases h.others a ⟨low, high⟩ with hmem | data
    · exact own a (List.mem_reverse.2 hmem)
    · exact keep data

/-- Values that were data before the list are put in front of it. -/
theorem pushAll (h : Gathered kind base s done cells) {vs : List Value}
    (hvs : ∀ v ∈ vs, IsData kind base v) (kinds : ∀ a, base.cells.size ≤ a → kind a) :
    ∃ cells', Gathered kind base (Store.pushAll vs done s).2 (Store.pushAll vs done s).1
      cells' := by
  induction vs generalizing s done cells with
  | nil => exact ⟨cells, h⟩
  | cons v vs ih =>
    obtain ⟨hv, hvs⟩ := List.forall_mem_cons.1 hvs
    have pushed := h.push (.of_cells (.refl s) rfl) (h.apart hv) (kinds _ h.grow.size_le)
    exact ih pushed hvs

theorem pushPairs (h : Gathered kind base s done cells) {entries : List (Value × Value)}
    (hentries : ∀ e ∈ entries, IsData kind base e.1 ∧ IsData kind base e.2)
    (kinds : ∀ a, base.cells.size ≤ a → kind a) : ∃ cells', Gathered kind base
      (Store.pushPairs entries done s).2 (Store.pushPairs entries done s).1 cells' := by
  induction entries generalizing s done cells with
  | nil => exact ⟨cells, h⟩
  | cons e entries ih =>
    obtain ⟨⟨hkey, hvalue⟩, hentries⟩ := List.forall_mem_cons.1 hentries
    obtain ⟨low, outside⟩ := h.outside (Nat.le_refl s.cells.size)
    obtain ⟨fill, pair⟩ := Fills.cons (h.apart hkey) (h.apart hvalue) ⟨kinds _ low, outside⟩
    have pushed := h.push fill pair (kinds _ (h.outside fill.size_le).1)
    exact ih pushed hentries

end Gathered

section operations

variable {kind : Nat → Prop} {s : Store}

theorem fills_ofList {vs : List Value} (hvs : ∀ v ∈ vs, IsData kind s v)
    (kinds : ∀ a, s.cells.size ≤ a → kind a) :
    Fills kind s (s.ofList vs).2 ∧ IsData kind (s.ofList vs).2 (s.ofList vs).1 := by
  obtain ⟨cells, gathered⟩ := (Gathered.start kind s).pushAll hvs kinds
  exact gathered.finish (.refl _) rfl nofun

theorem fills_zip {keys values : Value} (hkeys : IsData kind s keys)
    (hvalues : IsData kind s values) (kinds : ∀ a, s.cells.size ≤ a → kind a) :
    Fills kind s (s.zip keys values).2 ∧
      IsData kind (s.zip keys values).2 (s.zip keys values).1 := by
  have entries : ∀ e ∈ (s.elements keys).zip (s.elements values),
      IsData kind s e.1 ∧ IsData kind s e.2 := fun e he => by
    obtain ⟨hkey, hvalue⟩ := List.of_mem_zip he
    exact ⟨hkeys.elements _ hkey, hvalues.elements _ hvalue⟩
  obtain ⟨cells, gathered⟩ := (Gathered.start kind s).pushPairs entries kinds
  exact gathered.finish (.refl _) rfl nofun

theorem fills_call {args : Value} (hargs : IsData kind s args) (procedure : Procedure)
    (kinds : ∀ a, s.cells.size ≤ a → kind a) :
    Fills kind s (s.call procedure args).2 ∧
      IsData kind (s.call procedure args).2 (s.call procedure args).1 := by
  have same : Fills kind s s := .of_cells (.refl s) rfl
  cases procedure with
  | car => exact ⟨same, hargs.car.car⟩
  | cdr => exact ⟨same, hargs.car.cdr⟩
  | cons => exact Fills.cons hargs.car hargs.cdr.car (kinds _ (Nat.le_refl _))
  | host _ => exact ⟨same, .atom nofun⟩

theorem fills_error (message : String) : Fills kind s (s.error message).2 ∧
    IsData kind (s.error message).2 (s.error message).1 :=
  ⟨.of_cells (s.allocates_error message).addsData rfl, .atom nofun⟩

theorem cells_keywordAmong (table : Nat) (op : Value) (names : List (String × Keyword))
    (s : Store) : (Store.keywordAmong table op names s).2.cells = s.cells := by
  induction names generalizing s with
  | nil => rfl
  | cons entry names ih =>
    simp only [Store.keywordAmong]
    split
    · exact Store.cells_intern s table entry.1
    · exact (ih _).trans (Store.cells_intern s table entry.1)

theorem fills_keyword {t : Store} {table : Nat} {op : Value} {k : Option Keyword}
    (head : s.keyword table op = (k, t)) : Fills kind s t := by
  have same := cells_keywordAmong table op keywords s
  rw [Store.keyword] at head
  rw [head] at same
  exact .of_cells (addsData_of_keyword head) same

theorem ofAtom_ne_cons (s : Store) (table : Nat) (a : Atom) (b : Nat) :
    (s.ofAtom table a).1 ≠ .cons b := by
  intro h
  cases a with
  | sym name =>
    simp only [Store.ofAtom, Store.intern] at h
    split at h
    · cases h
    · split at h <;> cases h
  | _ => cases h

theorem ofAtom_adds (s : Store) (table : Nat) (a : Atom) :
    AddsData s (s.ofAtom table a).2 ∧ (s.ofAtom table a).2.cells = s.cells := by
  cases a with
  | nil => exact ⟨.refl s, rfl⟩
  | num n => exact ⟨(s.allocates_num n).addsData, rfl⟩
  | sym name => exact ⟨s.addsData_intern table name, s.cells_intern table name⟩
  | error message => exact ⟨(s.allocates_error message).addsData, rfl⟩

mutual

/-- What is built for a datum that has been read is data in new cells. -/
theorem fills_ofDatum (table : Nat) : (d : Datum) → (s : Store) →
    Fills (s.cells.size ≤ ·) s (Store.ofDatum table d s).2 ∧
      IsData (s.cells.size ≤ ·) (Store.ofDatum table d s).2 (Store.ofDatum table d s).1
  | .atom a, s => by
    obtain ⟨adds, same⟩ := ofAtom_adds s table a
    exact ⟨.of_cells adds same, .atom (ofAtom_ne_cons s table a)⟩
  | .cons a d, s => by
    obtain ⟨fill, element⟩ := fills_ofDatum table a s
    have start := Gathered.start (s.cells.size ≤ ·) s
    exact fills_ofTail table d (start.push (fill.mono fun b hb => start.outside hb)
      (element.mono fun b hb => start.outside hb) fill.size_le)

theorem fills_ofTail (table : Nat) : (d : Datum) → {base s : Store} → {done : Value} →
    {cells : List Nat} → Gathered (base.cells.size ≤ ·) base s done cells →
    Fills (base.cells.size ≤ ·) base (Store.ofTail table d done s).2 ∧
      IsData (base.cells.size ≤ ·) (Store.ofTail table d done s).2
        (Store.ofTail table d done s).1
  | .atom a, base, s, done, cells, gathered => by
    obtain ⟨adds, same⟩ := ofAtom_adds s table a
    exact gathered.finish adds same (ofAtom_ne_cons s table a)
  | .cons a d, base, s, done, cells, gathered => by
    obtain ⟨fill, element⟩ := fills_ofDatum table a s
    exact fills_ofTail table d (gathered.push (fill.mono fun b hb => gathered.outside hb)
      (element.mono fun b hb => gathered.outside hb) (gathered.outside fill.size_le).1)

end

/-- What is read is data in new cells, and reading that is refused adds no cells. -/
theorem fills_read {s s' : Store} {table : Nat} {text : List Char} :
    (∀ v rest, read table text s = .ok (v, rest) s' →
      Fills (s.cells.size ≤ ·) s s' ∧ IsData (s.cells.size ≤ ·) s' v) ∧
    ∀ stop, read table text s = .error stop s' → Fills (s.cells.size ≤ ·) s s' := by
  have entered : ∀ names, Fills (s.cells.size ≤ ·) s (s.internAll table names) := fun names =>
    .of_cells (s.addsData_internAll table names) (s.cells_internAll table names)
  refine ⟨fun v rest reading => ?_, fun stop reading => ?_⟩
  · obtain ⟨names, d, short, form⟩ := read_eq_ok reading
    cases (read_of_readForm form s).symm.trans reading
    obtain ⟨fill, data⟩ := fills_ofDatum table d (s.internAll table names.reverse)
    rw [s.cells_internAll] at fill data
    exact ⟨(entered _).trans fill, data⟩
  · obtain ⟨names, digits, -, -, rfl⟩ := read_eq_error reading
    exact entered _

end operations

end PocketLisp
