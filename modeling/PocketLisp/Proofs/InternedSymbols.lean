import PocketLisp.Proofs.StoredErrors

/-!
# Symbols belong to their table

Symbols are told apart by identity, so a name must have one symbol only. The store of a session
holds no symbol but those of the table of the session, each of them under its name: this is so of
all parts of all cells and closures, whether anything reaches them or not. Making cells and
relinking them moves values about, and only interning makes symbols.
-/
namespace PocketLisp

/-- A symbol is the one that the table has for its name. -/
def Value.OwnedBy (table : Nat) (s : Store) : Value → Prop
  | .sym x => s.findSymbol? table x.name = some x
  | _ => True

structure Env.OwnedBy (table : Nat) (s : Store) (env : Env) : Prop where
  own : env.table = table
  frames : env.frames.OwnedBy table s
  globalFrames : env.globalFrames.OwnedBy table s

def Cell.OwnedBy (table : Nat) (s : Store) (c : Cell) : Prop :=
  c.car.OwnedBy table s ∧ c.cdr.OwnedBy table s

instance (table : Nat) (s : Store) : DecidablePred (Value.OwnedBy table s)
  | .sym x => inferInstanceAs (Decidable (s.findSymbol? table x.name = some x))
  | .nil | .num _ _ | .error _ _ | .cons _ | .subr _ _ | .expr _ => .isTrue trivial

instance (table : Nat) (s : Store) : DecidablePred (Cell.OwnedBy table s) :=
  fun c => inferInstanceAs (Decidable (c.car.OwnedBy table s ∧ c.cdr.OwnedBy table s))

structure Closure.OwnedBy (table : Nat) (s : Store) (c : Closure) : Prop where
  params : c.params.OwnedBy table s
  body : c.body.OwnedBy table s
  env : c.env.OwnedBy table s

/-- A name has one symbol in the table at most, the name of the empty list has none, and all symbols
in the store are those of the table. -/
structure Store.Interned (table : Nat) (s : Store) : Prop where
  inStore : table < s.tables.size
  distinct : ((s.symbols table).map Symbol.name).Nodup
  noNil : "nil" ∉ (s.symbols table).map Symbol.name
  cells : ∀ (a : Nat) (c : Cell), s.cells[a]? = some c → c.OwnedBy table s
  closures : ∀ (k : Nat) (c : Closure), s.closures[k]? = some c → c.OwnedBy table s

section ownership

variable {table : Nat} {s s' : Store} {v w : Value}

/-- What the table of one store has, that of the other has too. -/
def Store.KeepsSymbols (table : Nat) (s s' : Store) : Prop :=
  ∀ (name : String) (sym : Symbol),
    s.findSymbol? table name = some sym → s'.findSymbol? table name = some sym

theorem Store.KeepsSymbols.of_tables (tables : s'.tables = s.tables) :
    s.KeepsSymbols table s' := by
  intro name sym h
  simpa only [findSymbol?, symbols, tables] using h

theorem Store.findSymbol?_eq_none_iff {name : String} :
    s.findSymbol? table name = none ↔ name ∉ (s.symbols table).map Symbol.name := by
  simp [findSymbol?]

namespace Value.OwnedBy

@[simp] theorem nil : Value.nil.OwnedBy table s := trivial

@[simp] theorem num {serial : Nat} {n : Fixnum} : (Value.num serial n).OwnedBy table s := trivial

@[simp] theorem error {serial : Nat} {message : String} :
    (Value.error serial message).OwnedBy table s := trivial

@[simp] theorem cons {a : Nat} : (Value.cons a).OwnedBy table s := trivial

@[simp] theorem subr {serial : Nat} {procedure : Procedure} :
    (Value.subr serial procedure).OwnedBy table s := trivial

@[simp] theorem expr {k : Nat} : (Value.expr k).OwnedBy table s := trivial

theorem keep (h : v.OwnedBy table s) (keeps : s.KeepsSymbols table s') : v.OwnedBy table s' := by
  cases v with
  | sym x => exact keeps _ _ h
  | _ => trivial

end Value.OwnedBy

theorem Env.OwnedBy.keep {env : Env} (h : env.OwnedBy table s)
    (keeps : s.KeepsSymbols table s') : env.OwnedBy table s' :=
  ⟨h.own, h.frames.keep keeps, h.globalFrames.keep keeps⟩

theorem Cell.OwnedBy.keep {c : Cell} (h : c.OwnedBy table s) (keeps : s.KeepsSymbols table s') :
    c.OwnedBy table s' :=
  ⟨h.1.keep keeps, h.2.keep keeps⟩

theorem Closure.OwnedBy.keep {c : Closure} (h : c.OwnedBy table s)
    (keeps : s.KeepsSymbols table s') : c.OwnedBy table s' :=
  ⟨h.params.keep keeps, h.body.keep keeps, h.env.keep keeps⟩

end ownership

namespace Store.Interned
variable {table : Nat} {s s' : Store} {v w : Value} (h : s.Interned table)
include h

theorem cell? {c : Cell} (hc : s.cell? v = some c) : c.OwnedBy table s := by
  obtain ⟨a, rfl, cell⟩ := Store.cell?_eq_some hc
  exact h.cells a c cell

theorem car (v : Value) : (s.car v).OwnedBy table s := by
  cases hc : s.cell? v with
  | none => simp [Store.car, hc]
  | some c => simpa [Store.car, hc] using (h.cell? hc).1

theorem cdr (v : Value) : (s.cdr v).OwnedBy table s := by
  cases hc : s.cell? v with
  | none => simp [Store.cdr, hc]
  | some c => simpa [Store.cdr, hc] using (h.cell? hc).2

theorem elements (v : Value) : ∀ x ∈ s.elements v, x.OwnedBy table s := by
  have within : ∀ (fuel : Nat) (v : Value), ∀ x ∈ s.elementsWithin fuel v, x.OwnedBy table s := by
    intro fuel
    induction fuel with
    | zero => simp [elementsWithin]
    | succ fuel ih =>
      intro v
      cases hc : s.cell? v with
      | none => simp [elementsWithin, hc]
      | some c => simpa [elementsWithin, hc] using ⟨(h.cell? hc).1, ih c.cdr⟩
  exact within _ v

theorem parts (v : Value) : ∀ w ∈ s.parts v, w.OwnedBy table s := by
  cases v with
  | cons a =>
    cases cell : s.cells[a]? with
    | none => simp [Store.parts, cell]
    | some c =>
      simp only [Store.parts_cons cell, List.forall_mem_cons, List.not_mem_nil, false_implies,
        implies_true, and_true]
      exact h.cells a c cell
  | expr k =>
    cases closure : s.closures[k]? with
    | none => simp [Store.parts, closure]
    | some c =>
      have owned := h.closures k c closure
      simp only [Store.parts_expr closure, List.forall_mem_cons, List.not_mem_nil, false_implies,
        implies_true, and_true]
      exact ⟨owned.params, owned.body, owned.env.frames, owned.env.globalFrames⟩
  | _ => simp [Store.parts]

/-- All that is reached from what belongs to the table belongs to it. -/
theorem reaches (hv : v.OwnedBy table s) (reach : s.Reaches v w) : w.OwnedBy table s := by
  induction reach with
  | refl => exact hv
  | tail _ part _ => exact h.parts _ _ part

/-- Cells may be added and changed if they hold what belongs to the table. -/
theorem of_cells (tables : s'.tables = s.tables) (closures : s'.closures = s.closures)
    (cells : ∀ (a : Nat) (c : Cell), s'.cells[a]? = some c → c.OwnedBy table s) :
    s'.Interned table where
  inStore := tables ▸ h.inStore
  distinct := by simpa only [symbols, tables] using h.distinct
  noNil := by simpa only [symbols, tables] using h.noNil
  cells a c hc := (cells a c hc).keep (.of_tables tables)
  closures k c hc := (h.closures k c (closures ▸ hc)).keep (.of_tables tables)

theorem cons (hv : v.OwnedBy table s) (hw : w.OwnedBy table s) :
    (s.cons v w).2.Interned table := by
  refine h.of_cells rfl rfl fun a c hc => ?_
  simp only [Store.cons, Array.getElem?_push] at hc
  split at hc
  · cases hc
    exact ⟨hv, hw⟩
  · exact h.cells a c hc

theorem setCar (hw : w.OwnedBy table s) : (s.setCar v w).Interned table := by
  cases v with
  | cons b =>
    refine h.of_cells rfl rfl fun a c hc => ?_
    simp only [Store.setCar, Array.getElem?_modify] at hc
    split at hc
    · obtain ⟨c', hc', rfl⟩ := Option.map_eq_some_iff.1 hc
      exact ⟨hw, (h.cells _ c' hc').2⟩
    · exact h.cells a c hc
  | _ => exact h

theorem setCdr (hw : w.OwnedBy table s) : (s.setCdr v w).Interned table := by
  cases v with
  | cons b =>
    refine h.of_cells rfl rfl fun a c hc => ?_
    simp only [Store.setCdr, Array.getElem?_modify] at hc
    split at hc
    · obtain ⟨c', hc', rfl⟩ := Option.map_eq_some_iff.1 hc
      exact ⟨(h.cells _ c' hc').1, hw⟩
    · exact h.cells a c hc
  | _ => exact h

theorem closure {params body : Value} {env : Env} (hparams : params.OwnedBy table s)
    (hbody : body.OwnedBy table s) (henv : env.OwnedBy table s) :
    (s.closure params body env).2.Interned table where
  inStore := h.inStore
  distinct := h.distinct
  noNil := h.noNil
  cells := h.cells
  closures k c hc := by
    simp only [Store.closure, Array.getElem?_push] at hc
    split at hc
    · cases hc
      exact ⟨hparams, hbody, henv.keep (.of_tables rfl)⟩
    · exact (h.closures k c hc).keep (.of_tables rfl)

theorem intern (name : String) : (s.intern table name).2.Interned table := by
  by_cases hnil : name = "nil"
  · rw [hnil, intern_nil]
    exact h
  · cases hfind : s.findSymbol? table name with
    | some sym =>
      rw [intern_of_findSymbol? hfind hnil]
      exact h
    | none =>
      have keeps : s.KeepsSymbols table (s.intern table name).2 :=
        fun _ _ => findSymbol?_intern_of_some
      have symbols : (s.intern table name).2.symbols table =
          ⟨s.nextSerial, name⟩ :: s.symbols table := by
        simp [intern_of_none hfind hnil, Store.symbols, h.inStore, Array.getElem_modify]
      have hnew := findSymbol?_eq_none_iff.1 hfind
      refine ⟨?_, ?_, ?_, fun a c hc => ?_, fun k c hc => ?_⟩
      · rw [(s.addsData_intern table name).tableCount]
        exact h.inStore
      · rw [symbols, List.map_cons, List.nodup_cons]
        exact ⟨hnew, h.distinct⟩
      · rw [symbols, List.map_cons, List.mem_cons, not_or]
        exact ⟨Ne.symm hnil, h.noNil⟩
      · rw [cells_intern] at hc
        exact (h.cells a c hc).keep keeps
      · rw [closures_intern] at hc
        exact (h.closures k c hc).keep keeps

end Store.Interned

/-- What an operation makes belongs to the table, as all that is in the store then, and the symbols
of the table are kept. -/
structure Produces (table : Nat) (s : Store) (r : Value × Store) : Prop where
  interned : r.2.Interned table
  owned : r.1.OwnedBy table r.2
  keeps : s.KeepsSymbols table r.2

section operations

variable {table : Nat} {s : Store} {v w : Value}

theorem Produces.here (h : s.Interned table) (hv : v.OwnedBy table s) : Produces table s (v, s) :=
  ⟨h, hv, fun _ _ => id⟩

theorem Produces.trans {t : Store} {r : Value × Store} (h : Produces table t r)
    (keeps : s.KeepsSymbols table t) : Produces table s r :=
  ⟨h.interned, h.owned, fun name sym hs => h.keeps name sym (keeps name sym hs)⟩

theorem produces_error (h : s.Interned table) (message : String) :
    Produces table s (s.error message) :=
  ⟨h.of_cells rfl rfl h.cells, trivial, .of_tables rfl⟩

theorem produces_num (h : s.Interned table) (n : Fixnum) : Produces table s (s.num n) :=
  ⟨h.of_cells rfl rfl h.cells, trivial, .of_tables rfl⟩

theorem produces_cons (h : s.Interned table) (hv : v.OwnedBy table s) (hw : w.OwnedBy table s) :
    Produces table s (s.cons v w) :=
  ⟨h.cons hv hw, trivial, .of_tables rfl⟩

theorem produces_intern (h : s.Interned table) (name : String) :
    Produces table s (s.intern table name) := by
  refine ⟨h.intern name, ?_, fun _ _ => Store.findSymbol?_intern_of_some⟩
  have again := Store.intern_intern h.inStore name
  generalize s.intern table name = r at again ⊢
  obtain ⟨v, t⟩ := r
  rcases Store.intern_eq_self_iff.1 again with ⟨-, rfl⟩ | ⟨-, sym, own, rfl⟩
  · trivial
  · obtain rfl := Store.name_of_findSymbol? own
    exact own

theorem produces_reverseOnto (fuel : Nat) (h : s.Interned table) (hw : w.OwnedBy table s) :
    Produces table s (Store.reverseOnto fuel v w s) := by
  induction fuel generalizing v w s with
  | zero => exact .here h hw
  | succ fuel ih =>
    cases hc : s.cell? v with
    | none => simpa only [Store.reverseOnto, hc] using Produces.here h hw
    | some c =>
      obtain ⟨a, rfl, -⟩ := Store.cell?_eq_some hc
      have linked : (s.setCdr (.cons a) w).Interned table := h.setCdr hw
      have rest : Produces table _ (Store.reverseOnto fuel c.cdr (.cons a) _) := ih linked .cons
      simp only [Store.reverseOnto, hc]
      exact rest.trans (.of_tables rfl)

theorem produces_pushAll {vs : List Value} (h : s.Interned table)
    (hvs : ∀ v ∈ vs, v.OwnedBy table s) (hw : w.OwnedBy table s) :
    Produces table s (Store.pushAll vs w s) := by
  induction vs generalizing w s with
  | nil => exact .here h hw
  | cons v vs ih =>
    rw [List.forall_mem_cons] at hvs
    have first := produces_cons h hvs.1 hw
    exact (ih first.interned (fun x hx => (hvs.2 x hx).keep first.keeps) first.owned).trans
      first.keeps

theorem produces_ofList {vs : List Value} (h : s.Interned table)
    (hvs : ∀ v ∈ vs, v.OwnedBy table s) : Produces table s (s.ofList vs) := by
  have pushed := produces_pushAll h hvs (.nil : Value.nil.OwnedBy table s)
  exact (produces_reverseOnto _ pushed.interned .nil).trans pushed.keeps

theorem produces_pushPairs {entries : List (Value × Value)} (h : s.Interned table)
    (hkeys : ∀ e ∈ entries, e.1.OwnedBy table s ∧ e.2.OwnedBy table s) (hw : w.OwnedBy table s) :
    Produces table s (Store.pushPairs entries w s) := by
  induction entries generalizing w s with
  | nil => exact .here h hw
  | cons e entries ih =>
    rw [List.forall_mem_cons] at hkeys
    have pair := produces_cons h hkeys.1.1 hkeys.1.2
    have next := (produces_cons pair.interned pair.owned (hw.keep pair.keeps)).trans pair.keeps
    refine (ih next.interned (fun x hx => ?_) next.owned).trans next.keeps
    exact ⟨(hkeys.2 x hx).1.keep next.keeps, (hkeys.2 x hx).2.keep next.keeps⟩

theorem produces_zip (h : s.Interned table) (keys values : Value) :
    Produces table s (s.zip keys values) := by
  have entries : ∀ e ∈ (s.elements keys).zip (s.elements values),
      e.1.OwnedBy table s ∧ e.2.OwnedBy table s := fun e he => by
    obtain ⟨hkey, hvalue⟩ := List.of_mem_zip he
    exact ⟨h.elements keys _ hkey, h.elements values _ hvalue⟩
  have pushed := produces_pushPairs h entries (.nil : Value.nil.OwnedBy table s)
  exact (produces_reverseOnto _ pushed.interned .nil).trans pushed.keeps

theorem produces_closure {env : Env} (h : s.Interned table) (hv : v.OwnedBy table s)
    (hw : w.OwnedBy table s) (henv : env.OwnedBy table s) :
    Produces table s (s.closure v w env) :=
  ⟨h.closure hv hw henv, trivial, .of_tables rfl⟩

theorem produces_call (h : s.Interned table) (procedure : Procedure) (args : Value) :
    Produces table s (s.call procedure args) := by
  cases procedure with
  | car => exact .here h (h.car _)
  | cdr => exact .here h (h.cdr _)
  | cons => exact produces_cons h (h.car _) (h.car _)
  | host _ => exact .here h .nil

theorem Store.Interned.branch (h : s.Interned table) (v args : Value) :
    (s.branch v args).OwnedBy table s := by
  unfold Store.branch
  split <;> exact h.car _

theorem Store.Interned.keywordAmong (h : s.Interned table) (op : Value)
    (names : List (String × Keyword)) :
    (Store.keywordAmong table op names s).2.Interned table := by
  induction names generalizing s with
  | nil => exact h
  | cons entry names ih =>
    simp only [Store.keywordAmong]
    split
    · exact h.intern entry.1
    · exact ih (h.intern entry.1)

theorem Store.Interned.bind (h : s.Interned table) {frames bindings key value : Value}
    (hbindings : bindings.OwnedBy table s) (hkey : key.OwnedBy table s)
    (hvalue : value.OwnedBy table s) : (s.bind frames bindings key value).Interned table := by
  have pair := produces_cons h hkey hvalue
  have next := produces_cons pair.interned pair.owned (hbindings.keep pair.keeps)
  exact next.interned.setCar next.owned

/-- A definition gives its name, and binds it to what belongs to the table. -/
theorem produces_defun (h : s.Interned table) {env : Env} {name params body f : Value} {t : Store}
    {frame : Cell} (henv : env.OwnedBy table s) (hname : name.OwnedBy table s)
    (hparams : params.OwnedBy table s) (hbody : body.OwnedBy table s)
    (function : s.closure params body env = (f, t))
    (global : t.cell? env.globalFrames = some frame) :
    Produces table s (name, t.bind env.globalFrames frame.car name f) := by
  have closure := produces_closure h hparams hbody henv
  have tables : t.tables = s.tables := by rw [(Store.closure_eq_iff.1 function).2]
  have keeps : s.KeepsSymbols table (t.bind env.globalFrames frame.car name f) :=
    .of_tables ((Store.tables_bind _ _ _ _ _).trans tables)
  rw [function] at closure
  have bindings := (closure.interned.cell? global).1
  have bound : (t.bind env.globalFrames frame.car name f).Interned table :=
    closure.interned.bind bindings (hname.keep (.of_tables tables)) closure.owned
  exact ⟨bound, hname.keep keeps, keeps⟩

theorem Store.Interned.extend (h : s.Interned table) {e : Env} (he : e.OwnedBy table s)
    (params args : Value) : (s.extend e params args).2.Interned table ∧
      (s.extend e params args).1.OwnedBy table (s.extend e params args).2 ∧
      s.KeepsSymbols table (s.extend e params args).2 := by
  have frame := produces_zip h params args
  have frames := (produces_cons frame.interned frame.owned (he.frames.keep frame.keeps)).trans
    frame.keeps
  exact ⟨frames.interned.of_cells rfl rfl frames.interned.cells,
    ⟨he.own, trivial, he.globalFrames.keep frames.keeps⟩, frames.keeps⟩

theorem Store.Interned.internAll (h : s.Interned table) (names : List String) :
    (s.internAll table names).Interned table := by
  induction names generalizing s with
  | nil => exact h
  | cons name names ih => exact ih (h.intern name)

theorem produces_ofAtom (h : s.Interned table) (a : Atom) :
    Produces table s (s.ofAtom table a) := by
  cases a with
  | nil => exact .here h .nil
  | num n => exact produces_num h n
  | sym name => exact produces_intern h name
  | error message => exact produces_error h message

mutual

theorem produces_ofDatum {s : Store} (h : s.Interned table) : (d : Datum) →
    Produces table s (Store.ofDatum table d s)
  | .atom a => produces_ofAtom h a
  | .cons a d => by
    have first := produces_ofDatum h a
    have done := (produces_cons first.interned first.owned .nil).trans first.keeps
    exact (produces_ofTail done.interned done.owned d).trans done.keeps

theorem produces_ofTail {s : Store} {done : Value} (h : s.Interned table)
    (hdone : done.OwnedBy table s) : (d : Datum) →
    Produces table s (Store.ofTail table d done s)
  | .atom a => by
    have last := produces_ofAtom h a
    exact (produces_reverseOnto _ last.interned last.owned).trans last.keeps
  | .cons a d => by
    have first := produces_ofDatum h a
    have next := (produces_cons first.interned first.owned (hdone.keep first.keeps)).trans
      first.keeps
    exact (produces_ofTail next.interned next.owned d).trans next.keeps

end

end operations

def Goal.OwnedBy (table : Nat) (s : Store) : Goal → Prop
  | .eval form env => form.OwnedBy table s ∧ env.OwnedBy table s
  | .args done forms env =>
    (∀ v ∈ done, v.OwnedBy table s) ∧ forms.OwnedBy table s ∧ env.OwnedBy table s
  | .body last forms env => last.OwnedBy table s ∧ forms.OwnedBy table s ∧ env.OwnedBy table s
  | .apply f values => f.OwnedBy table s ∧ values.OwnedBy table s

def Waiting.OwnedBy (table : Nat) (s : Store) : Waiting → Prop
  | .test args env => args.OwnedBy table s ∧ env.OwnedBy table s
  | .function args env => args.OwnedBy table s ∧ env.OwnedBy table s
  | .arguments f => f.OwnedBy table s
  | .argument done _ env => (∀ v ∈ done, v.OwnedBy table s) ∧ env.OwnedBy table s
  | .form _ env => env.OwnedBy table s

def Stage.OwnedBy (table : Nat) (s : Store) : Stage → Prop
  | .idle => True
  | .ask g w => g.OwnedBy table s ∧ ∀ x ∈ w, x.OwnedBy table s
  | .give v w => v.OwnedBy table s ∧ ∀ x ∈ w, x.OwnedBy table s

structure Moment.Interned (table : Nat) (m : Moment) : Prop where
  store : m.store.Interned table
  stage : m.stage.OwnedBy table m.store

section moments

variable {table : Nat} {s s' : Store}

theorem Waiting.OwnedBy.keep {x : Waiting} (h : x.OwnedBy table s)
    (keeps : s.KeepsSymbols table s') : x.OwnedBy table s' := by
  cases x with
  | test _ _ => exact ⟨h.1.keep keeps, h.2.keep keeps⟩
  | function _ _ => exact ⟨h.1.keep keeps, h.2.keep keeps⟩
  | arguments _ => exact Value.OwnedBy.keep h keeps
  | argument _ _ _ => exact ⟨fun v hv => (h.1 v hv).keep keeps, h.2.keep keeps⟩
  | form _ _ => exact Env.OwnedBy.keep h keeps

theorem Store.Interned.keyword (h : s.Interned table) {env : Env} (henv : env.OwnedBy table s)
    {op : Value} {k : Option Keyword} (head : s.keyword env.table op = (k, s')) :
    s'.Interned table ∧ s.KeepsSymbols table s' := by
  rw [henv.own] at head
  have interned := h.keywordAmong op keywords
  have adds := s.addsData_keyword table op
  rw [Store.keyword] at adds head
  rw [head] at interned adds
  exact ⟨interned, adds.symbols table⟩

theorem Produces.give {r : Value × Store} {w : List Waiting} (h : Produces table s r)
    (hw : ∀ x ∈ w, x.OwnedBy table s) :
    s.KeepsSymbols table r.2 ∧ Moment.Interned table ⟨.give r.1 w, r.2⟩ :=
  ⟨h.keeps, h.interned, h.owned, fun x hx => (hw x hx).keep h.keeps⟩

/-- A step makes no symbol outside the table. -/
theorem Step.interned {m m' : Moment} {ds : List Defined} (h : Step m ds m')
    (hm : m.Interned table) : m.store.KeepsSymbols table m'.store ∧ m'.Interned table := by
  have same : ∀ s : Store, s.KeepsSymbols table s := fun _ _ _ => id
  have all : ∀ {s s' : Store} {w : List Waiting}, s.KeepsSymbols table s' →
      (∀ x ∈ w, x.OwnedBy table s) → ∀ x ∈ w, x.OwnedBy table s' :=
    fun keeps hw x hx => (hw x hx).keep keeps
  obtain ⟨interned, stage⟩ := hm
  cases h with
  | bound found => exact ⟨same _, interned, interned.cdr _, stage.2⟩
  | unbound _ => exact (produces_error interned _).give stage.2
  | self _ _ => exact ⟨same _, interned, stage.1.1, stage.2⟩
  | quote cell head =>
    obtain ⟨⟨-, env⟩, hw⟩ := stage
    obtain ⟨interned, keeps⟩ := interned.keyword env head
    exact ⟨keeps, interned, interned.car _, all keeps hw⟩
  | test cell head =>
    obtain ⟨⟨-, env⟩, hw⟩ := stage
    have args := (interned.cells _ _ cell).2
    obtain ⟨interned, keeps⟩ := interned.keyword env head
    have env := env.keep keeps
    refine ⟨keeps, interned, ⟨interned.car _, env⟩, ?_⟩
    exact List.forall_mem_cons.2 ⟨⟨args.keep keeps, env⟩, all keeps hw⟩
  | testError _ => exact ⟨same _, interned, stage.1, (List.forall_mem_cons.1 stage.2).2⟩
  | branch _ =>
    obtain ⟨⟨-, env⟩, hw⟩ := List.forall_mem_cons.1 stage.2
    exact ⟨same _, interned, ⟨interned.branch _ _, env⟩, hw⟩
  | @lambda a op args env w s s₁ cell head =>
    obtain ⟨⟨-, env⟩, hw⟩ := stage
    obtain ⟨interned, keeps⟩ := interned.keyword env head
    have closure := produces_closure interned (interned.car args) (interned.cdr args)
      (env.keep keeps)
    exact (closure.trans keeps).give hw
  | @defun a k op args env w s s₁ s₂ frame cell head function global =>
    obtain ⟨⟨-, env⟩, hw⟩ := stage
    obtain ⟨interned, keeps⟩ := interned.keyword env head
    have name := interned.car args
    exact ((produces_defun interned (env.keep keeps) name (interned.car _) (interned.cdr _) function
      global).trans keeps).give hw
  | function cell head =>
    obtain ⟨⟨-, env⟩, hw⟩ := stage
    obtain ⟨op, args⟩ := interned.cells _ _ cell
    obtain ⟨interned, keeps⟩ := interned.keyword env head
    have env := env.keep keeps
    refine ⟨keeps, interned, ⟨op.keep keeps, env⟩, ?_⟩
    exact List.forall_mem_cons.2 ⟨⟨args.keep keeps, env⟩, all keeps hw⟩
  | arguments =>
    obtain ⟨hf, hw⟩ := stage
    obtain ⟨⟨args, env⟩, hw⟩ := List.forall_mem_cons.1 hw
    exact ⟨same _, interned, ⟨by simp, args, env⟩, List.forall_mem_cons.2 ⟨hf, hw⟩⟩
  | application =>
    obtain ⟨hvalues, hw⟩ := stage
    obtain ⟨hf, hw⟩ := List.forall_mem_cons.1 hw
    exact ⟨same _, interned, ⟨hf, hvalues⟩, hw⟩
  | argsEnd _ =>
    obtain ⟨⟨hdone, -⟩, hw⟩ := stage
    exact (produces_ofList interned fun v hv => hdone v (List.mem_reverse.1 hv)).give hw
  | argument cell =>
    obtain ⟨⟨hdone, -, env⟩, hw⟩ := stage
    have form := (interned.cells _ _ cell).1
    exact ⟨same _, interned, ⟨form, env⟩, List.forall_mem_cons.2 ⟨⟨hdone, env⟩, hw⟩⟩
  | argsError _ => exact ⟨same _, interned, stage.1, (List.forall_mem_cons.1 stage.2).2⟩
  | argsNext _ =>
    obtain ⟨hv, hw⟩ := stage
    obtain ⟨⟨hdone, env⟩, hw⟩ := List.forall_mem_cons.1 hw
    have done := List.forall_mem_cons.2 ⟨hv, hdone⟩
    exact ⟨same _, interned, ⟨done, interned.cdr _, env⟩, hw⟩
  | bodyEnd _ => exact ⟨same _, interned, stage.1.1, stage.2⟩
  | form cell =>
    obtain ⟨⟨-, -, env⟩, hw⟩ := stage
    have form := (interned.cells _ _ cell).1
    exact ⟨same _, interned, ⟨form, env⟩, List.forall_mem_cons.2 ⟨env, hw⟩⟩
  | bodyNext =>
    obtain ⟨hv, hw⟩ := stage
    obtain ⟨env, hw⟩ := List.forall_mem_cons.1 hw
    exact ⟨same _, interned, ⟨hv, interned.cdr _, env⟩, hw⟩
  | applyError _ => exact ⟨same _, interned, stage.1.1, stage.2⟩
  | applyArgsError _ _ => exact ⟨same _, interned, stage.1.2, stage.2⟩
  | applySubr _ => exact (produces_call interned _ _).give stage.2
  | @applyClosure k c args env w s s₁ _ closure frame =>
    have owned := interned.closures k c closure
    obtain ⟨interned, env, keeps⟩ := interned.extend owned.env c.params args
    rw [frame] at interned env keeps
    exact ⟨keeps, interned, ⟨trivial, owned.body.keep keeps, env⟩, all keeps stage.2⟩
  | applyOther _ _ _ _ => exact (produces_error interned _).give stage.2

/-- Reading makes no symbol outside the table, also when a numeral stops it. -/
theorem read_interned (h : s.Interned table) (text : List Char) :
    (∀ v rest s', read table text s = .ok (v, rest) s' → Produces table s (v, s')) ∧
    ∀ stop s', read table text s = .error stop s' →
      s'.Interned table ∧ s.KeepsSymbols table s' := by
  unfold read
  cases readForm text [] text (Nat.le_succ _) with
  | form names d rest short =>
    have interned := h.internAll names.reverse
    have keeps := (s.addsData_internAll table names.reverse).symbols table
    have built := (produces_ofDatum interned d).trans keeps
    have run : (Reading.form names d rest short).store table s =
        .ok ((Store.ofDatum table d (s.internAll table names.reverse)).1, rest)
          (Store.ofDatum table d (s.internAll table names.reverse)).2 := rfl
    rw [run]
    constructor
    · rintro v rest' s' ⟨⟩
      exact built
    · rintro stop s' ⟨⟩
  | overlong names digits =>
    have run : (Reading.overlong names digits : Reading text).store table s =
        .error (.fault (.overlong digits)) (s.internAll table names.reverse) := rfl
    rw [run]
    constructor
    · rintro v rest s' ⟨⟩
    · rintro stop s' ⟨⟩
      exact ⟨h.internAll names.reverse, (s.addsData_internAll table names.reverse).symbols table⟩

/-- A session makes no symbol outside its table, whatever it does. -/
theorem Move.interned {root : Env} {m m' : Moment} {ds : List Defined} (h : Move root m ds m')
    (hm : m.Interned root.table) (hroot : root.OwnedBy root.table m.store) :
    m.store.KeepsSymbols root.table m'.store ∧ m'.Interned root.table := by
  cases h with
  | step step => exact step.interned hm
  | line reading =>
    have form := (read_interned hm.store _).1 _ _ _ reading
    exact ⟨form.keeps, form.interned, ⟨form.owned, hroot.keep form.keeps⟩, by simp⟩
  | refused reading =>
    obtain ⟨interned, keeps⟩ := (read_interned hm.store _).2 _ _ reading
    exact ⟨keeps, interned, trivial⟩
  | answered => exact ⟨fun _ _ => id, hm.store, trivial⟩

theorem Course.interned {root : Env} {m m' : Moment} {ds : List Defined}
    (h : Course (Move root) m ds m') (hm : m.Interned root.table)
    (hroot : root.OwnedBy root.table m.store) :
    m.store.KeepsSymbols root.table m'.store ∧ m'.Interned root.table := by
  induction h with
  | refl => exact ⟨fun _ _ => id, hm⟩
  | next _ last ih =>
    obtain ⟨keeps, interned⟩ := ih
    obtain ⟨keeps', interned'⟩ := last.interned interned (hroot.keep keeps)
    exact ⟨fun name sym hs => keeps' name sym (keeps name sym hs), interned'⟩

end moments

theorem newSession_interned {root : Env} {s : Store}
    (h : Env.newSession Store.empty = .ok root s) :
    s.Interned root.table ∧ root.OwnedBy root.table s := by
  cases newSession_eq.symm.trans h
  have cells (s : Store) (owned : ∀ c ∈ s.cells.toList, c.OwnedBy 0 s) :
      ∀ (a : Nat) (c : Cell), s.cells[a]? = some c → c.OwnedBy 0 s :=
    fun a c hc => owned c (Array.mem_toList_iff.2 (Array.mem_of_getElem? hc))
  refine ⟨⟨by decide, by decide, by decide, cells _ (by decide), fun k c hc => ?_⟩, rfl, trivial,
    trivial⟩
  simp at hc

end PocketLisp
