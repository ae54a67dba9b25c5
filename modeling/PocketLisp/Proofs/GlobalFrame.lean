import PocketLisp.Proofs.EvaluationRuns

/-!
# What evaluation changes

Of the cells that are there when an evaluation starts, only the cell of the global frame can be
changed, and only by putting new definitions in front of what it binds. This holds through all the
rules because every closure of a store extends the same global frame, and because the lists that
are reversed in place are new.
-/
namespace PocketLisp

/-- The bindings `new` are the bindings `old` with definitions in front. The cells of the
definitions and their closures are in the second store and not in the first one. -/
inductive Definitions (s s' : Store) (old : Value) : Value → Prop where
  | none : Definitions s s' old old
  | more {a p k : Nat} {name new : Value} (cell : s'.cells[a]? = some ⟨.cons p, new⟩)
      (pair : s'.cells[p]? = some ⟨name, .expr k⟩) (newCell : s.IsNew s' a)
      (newPair : s.IsNew s' p) (newClosure : s.closures.size ≤ k ∧ k < s'.closures.size)
      (earlier : Definitions s s' old new) : Definitions s s' old (.cons a)

/-- The second store is the first one with additions, and with definitions in the global frame. -/
structure GrowsAt (global : Nat) (s s' : Store) : Prop where
  size_le : s.cells.size ≤ s'.cells.size
  cells : ∀ a < s.cells.size, a ≠ global → s'.cells[a]? = s.cells[a]?
  frame : ∀ c : Cell, s.cells[global]? = some c →
    ∃ new, s'.cells[global]? = some ⟨new, c.cdr⟩ ∧ Definitions s s' c.car new
  closures : ∀ (k : Nat) (c : Closure), s.closures[k]? = some c → s'.closures[k]? = some c
  symbols : ∀ (table : Nat) (name : String) (sym : Symbol),
    s.findSymbol? table name = some sym → s'.findSymbol? table name = some sym

def Rooted (global : Nat) (s : Store) : Prop :=
  ∀ (k : Nat) (c : Closure), s.closures[k]? = some c → c.env.globalFrames = .cons global

def Goal.RootedAt (global : Nat) : Goal → Prop
  | .eval _ env => env.globalFrames = .cons global
  | .args _ _ env => env.globalFrames = .cons global
  | .body _ _ env => env.globalFrames = .cons global
  | .apply _ _ => True

theorem Extends.growsAt {s s' : Store} (h : Extends s s') (global : Nat) : GrowsAt global s s' where
  size_le := h.size_le
  cells _ ha _ := h.getElem?_of_lt ha
  frame c hc := ⟨c.car, h.cells global c hc, .none⟩
  closures := h.closures
  symbols := h.symbols

namespace GrowsAt
variable {global : Nat} {s t u : Store}

theorem closures_size_le (h : GrowsAt global s t) : s.closures.size ≤ t.closures.size := by
  by_contra hlt
  have hsome : s.closures[t.closures.size]? = some s.closures[t.closures.size] :=
    Array.getElem?_eq_getElem (by omega)
  have := (Array.getElem?_eq_some_iff.1 (h.closures _ _ hsome)).1
  omega

theorem getElem?_of_isNew (h : GrowsAt global t u) {a : Nat} (ha : s.IsNew t a)
    (hglobal : global < s.cells.size) : u.cells[a]? = t.cells[a]? := by
  obtain ⟨low, high⟩ := ha
  exact h.cells a high (by omega)

end GrowsAt

namespace Definitions
variable {global : Nat} {s t u : Store} {old mid new : Value}

theorem grow (h : Definitions s t old new) (h' : GrowsAt global t u)
    (hglobal : global < s.cells.size) : Definitions s u old new := by
  induction h with
  | none => exact .none
  | more cell pair newCell newPair newClosure _ ih =>
    have hsize := h'.size_le
    have hclosures := h'.closures_size_le
    have cell' := (h'.getElem?_of_isNew newCell hglobal).trans cell
    have pair' := (h'.getElem?_of_isNew newPair hglobal).trans pair
    refine .more cell' pair' ⟨newCell.1, ?_⟩ ⟨newPair.1, ?_⟩ ⟨newClosure.1, ?_⟩ ih
    · exact Nat.lt_of_lt_of_le newCell.2 hsize
    · exact Nat.lt_of_lt_of_le newPair.2 hsize
    · exact Nat.lt_of_lt_of_le newClosure.2 hclosures

theorem append (h : Definitions t u mid new) (h' : Definitions s u old mid)
    (hsize : s.cells.size ≤ t.cells.size) (hclosures : s.closures.size ≤ t.closures.size) :
    Definitions s u old new := by
  induction h with
  | none => exact h'
  | more cell pair newCell newPair newClosure _ ih =>
    refine .more cell pair ⟨?_, newCell.2⟩ ⟨?_, newPair.2⟩ ⟨?_, newClosure.2⟩ ih
    · exact Nat.le_trans hsize newCell.1
    · exact Nat.le_trans hsize newPair.1
    · exact Nat.le_trans hclosures newClosure.1

end Definitions

namespace GrowsAt
variable {global : Nat} {s t u : Store}

theorem refl (global : Nat) (s : Store) : GrowsAt global s s := (Extends.refl s).growsAt global

theorem trans (h : GrowsAt global s t) (h' : GrowsAt global t u)
    (hglobal : global < s.cells.size) : GrowsAt global s u where
  size_le := Nat.le_trans h.size_le h'.size_le
  cells a ha hne := (h'.cells a (Nat.lt_of_lt_of_le ha h.size_le) hne).trans (h.cells a ha hne)
  frame c hc := by
    obtain ⟨mid, hmid, first⟩ := h.frame c hc
    obtain ⟨new, hnew, second⟩ := h'.frame _ hmid
    exact ⟨new, hnew,
      second.append (first.grow h' hglobal) h.size_le h.closures_size_le⟩
  closures k c hc := h'.closures k c (h.closures k c hc)
  symbols table name sym hs := h'.symbols table name sym (h.symbols table name sym hs)

end GrowsAt

theorem Rooted.of_closures_eq {global : Nat} {s s' : Store} (h : Rooted global s)
    (hclosures : s'.closures = s.closures) : Rooted global s' := by
  intro k c hc
  rw [hclosures] at hc
  exact h k c hc

theorem Rooted.closure {global : Nat} {s : Store} (h : Rooted global s) {env : Env}
    (henv : env.globalFrames = .cons global) (params body : Value) :
    Rooted global (s.closure params body env).2 := by
  intro k c hc
  simp only [Store.closure, Array.getElem?_push] at hc
  split at hc
  · cases hc
    exact henv
  · exact h k c hc

namespace Store

/-- Binding a key changes only the frame, to which it adds one pair. -/
theorem bind_spec {s : Store} {global : Nat} {frame : Cell} (h : s.cells[global]? = some frame)
    (key value : Value) :
    (∀ a < s.cells.size, a ≠ global →
      (s.bind (.cons global) frame.car key value).cells[a]? = s.cells[a]?) ∧
    (s.bind (.cons global) frame.car key value).cells[global]? =
      some ⟨.cons (s.cells.size + 1), frame.cdr⟩ ∧
    (s.bind (.cons global) frame.car key value).cells[s.cells.size + 1]? =
      some ⟨.cons s.cells.size, frame.car⟩ ∧
    (s.bind (.cons global) frame.car key value).cells[s.cells.size]? = some ⟨key, value⟩ ∧
    (s.bind (.cons global) frame.car key value).cells.size = s.cells.size + 2 := by
  have hlt : global < s.cells.size := (Array.getElem?_eq_some_iff.1 h).1
  have hpair := size_cons s key value
  have hnext := size_cons (s.cons key value).2 (s.cons key value).1 frame.car
  have growPair := allocates_cons s key value
  have growNext := allocates_cons (s.cons key value).2 (s.cons key value).1 frame.car
  have hframe : ((s.cons key value).2.cons (s.cons key value).1 frame.car).2.cells[global]? =
      some frame := ((growPair.trans growNext).cells global hlt).trans h
  have hbind : s.bind (.cons global) frame.car key value =
      ((s.cons key value).2.cons (s.cons key value).1 frame.car).2.setCar (.cons global)
        (.cons (s.cells.size + 1)) := by
    rw [← hpair]
    rfl
  rw [hbind]
  refine ⟨fun a ha hne => ?_, getElem?_setCar_self hframe _, ?_, ?_, ?_⟩
  · exact (getElem?_setCar_of_ne _ hne _).trans ((growPair.trans growNext).cells a ha)
  · refine (getElem?_setCar_of_ne _ (by omega) _).trans ?_
    rw [← hpair]
    exact getElem?_cons_self (s.cons key value).2 (s.cons key value).1 frame.car
  · refine (getElem?_setCar_of_ne _ (by omega) _).trans ?_
    exact (growNext.cells _ (by omega)).trans (getElem?_cons_self s key value)
  · rw [(relinks_setCar _ _ _).size, hnext, hpair]

theorem closures_bind (s : Store) (frames bindings key value : Value) :
    (s.bind frames bindings key value).closures = s.closures :=
  (relinks_setCar _ _ _).closures

theorem tables_bind (s : Store) (frames bindings key value : Value) :
    (s.bind frames bindings key value).tables = s.tables :=
  (relinks_setCar _ _ _).tables

theorem findSymbol?_bind (s : Store) (frames bindings key value : Value) (table : Nat)
    (name : String) :
    (s.bind frames bindings key value).findSymbol? table name = s.findSymbol? table name := by
  rw [findSymbol?, symbols, tables_bind]
  rfl

theorem growsAt_defun {global : Nat} {s s' : Store} {params body f name : Value} {env : Env}
    {frame : Cell} (function : s.closure params body env = (f, s'))
    (hframe : s'.cells[global]? = some frame) :
    GrowsAt global s (s'.bind (.cons global) frame.car name f) := by
  have growClosure := extends_closure s params body env
  rw [function] at growClosure
  obtain ⟨hf, hs'⟩ := closure_eq_iff.1 function
  have hcells : s'.cells = s.cells := by rw [hs']
  have hclosures : s'.closures.size = s.closures.size + 1 := by
    rw [hs']
    exact Array.size_push _
  obtain ⟨others, front, next, pair, size⟩ := bind_spec hframe name f
  rw [hcells] at others next pair size front
  refine ⟨by omega, fun a ha hne => others a ha hne, fun c hc => ?_,
    fun k c hc => ?_, fun table n sym hsym => ?_⟩
  · rw [hcells, hc] at hframe
    cases hframe
    rw [hf] at next pair front size ⊢
    have newClosure : s.closures.size <
        (s'.bind (.cons global) frame.car name (.expr s.closures.size)).closures.size := by
      rw [closures_bind]
      omega
    exact ⟨_, front, .more next pair ⟨by omega, by omega⟩ ⟨by omega, by omega⟩
      ⟨Nat.le_refl _, newClosure⟩ .none⟩
  · rw [closures_bind]
    exact growClosure.closures k c hc
  · rw [findSymbol?_bind]
    exact growClosure.symbols table n sym hsym

end Store

/-- A binding in a frame changes nothing of what was there before the frame. -/
theorem AddsData.bind {s₀ s : Store} (h : AddsData s₀ s) {global : Nat} {frame : Cell}
    (new : s₀.cells.size ≤ global) (cell : s.cells[global]? = some frame) (key value : Value) :
    AddsData s₀ (s.bind (.cons global) frame.car key value) := by
  obtain ⟨others, -⟩ := Store.bind_spec cell key value
  have size := h.size_le
  refine ⟨⟨fun a c hc => ?_, fun k c hc => ?_, fun t n sym found => ?_⟩, ?_, ?_⟩
  · have ha := (Array.getElem?_eq_some_iff.1 hc).1
    exact (others a (by omega) (by omega)).trans (h.cells a c hc)
  · rw [Store.closures_bind]
    exact h.closures k c hc
  · rw [Store.findSymbol?_bind]
    exact h.symbols t n sym found
  · exact (Store.closures_bind _ _ _ _ _).trans h.sameClosures
  · rw [Store.tables_bind]
    exact h.tableCount

private theorem growsAt_of_allocates {global : Nat} {s s' : Store} (h : Allocates s s')
    (rooted : Rooted global s) : GrowsAt global s s' ∧ Rooted global s' :=
  ⟨h.toExtends.growsAt global, rooted.of_closures_eq h.closures⟩

private theorem growsAt_of_keyword {global : Nat} {s s₁ : Store} {table : Nat} {op : Value}
    {k : Option Keyword} (head : s.keyword table op = (k, s₁)) (rooted : Rooted global s) :
    GrowsAt global s s₁ ∧ Rooted global s₁ := by
  have adds := s.addsData_keyword table op
  rw [head] at adds
  exact ⟨adds.growsAt global, rooted.of_closures_eq adds.sameClosures⟩

/-- An answer grows the store at the global frame that all its closures extend. -/
theorem Answers.growsAt {global : Nat} {g : Goal} {s s' : Store} {v : Value}
    (h : Answers g s v s') (hglobal : global < s.cells.size) (rooted : Rooted global s)
    (hg : g.RootedAt global) : GrowsAt global s s' ∧ Rooted global s' := by
  induction h with
  | bound _ => exact ⟨.refl global _, rooted⟩
  | unbound _ => exact growsAt_of_allocates (Store.allocates_error _ _) rooted
  | self _ _ => exact ⟨.refl global _, rooted⟩
  | quote _ head => exact growsAt_of_keyword head rooted
  | testError _ head _ _ ih =>
    obtain ⟨grow, rooted⟩ := growsAt_of_keyword head rooted
    obtain ⟨grow', rooted⟩ := ih (Nat.lt_of_lt_of_le hglobal grow.size_le) rooted hg
    exact ⟨grow.trans grow' hglobal, rooted⟩
  | conditional _ head _ _ _ ihTest ihBranch =>
    obtain ⟨grow₁, rooted⟩ := growsAt_of_keyword head rooted
    have h₁ := Nat.lt_of_lt_of_le hglobal grow₁.size_le
    obtain ⟨grow₂, rooted⟩ := ihTest h₁ rooted hg
    have h₂ := Nat.lt_of_lt_of_le h₁ grow₂.size_le
    obtain ⟨grow₃, rooted⟩ := ihBranch h₂ rooted hg
    exact ⟨(grow₁.trans grow₂ hglobal).trans grow₃ hglobal, rooted⟩
  | @lambda a op args env s s₁ _ head =>
    obtain ⟨grow, rooted⟩ := growsAt_of_keyword head rooted
    have growClosure := (s₁.extends_closure (s₁.car args) (s₁.cdr args) env).growsAt global
    exact ⟨grow.trans growClosure hglobal, rooted.closure hg _ _⟩
  | @defun a op args f env s s₁ s₂ frame _ head function hframe =>
    have henv : env.globalFrames = .cons global := hg
    obtain ⟨grow, rooted⟩ := growsAt_of_keyword head rooted
    rw [henv] at hframe ⊢
    have rooted' := rooted.closure henv (s₁.car (s₁.cdr args)) (s₁.cdr (s₁.cdr args))
    rw [function] at rooted'
    exact ⟨grow.trans (Store.growsAt_defun function hframe) hglobal,
      rooted'.of_closures_eq (Store.closures_bind _ _ _ _ _)⟩
  | application _ head _ _ _ ihFunction ihArguments ihResult =>
    obtain ⟨grow₁, rooted⟩ := growsAt_of_keyword head rooted
    have h₁ := Nat.lt_of_lt_of_le hglobal grow₁.size_le
    obtain ⟨grow₂, rooted⟩ := ihFunction h₁ rooted hg
    have h₂ := Nat.lt_of_lt_of_le h₁ grow₂.size_le
    obtain ⟨grow₃, rooted⟩ := ihArguments h₂ rooted hg
    have h₃ := Nat.lt_of_lt_of_le h₂ grow₃.size_le
    obtain ⟨grow₄, rooted⟩ := ihResult h₃ rooted trivial
    have grow := (grow₁.trans grow₂ hglobal).trans grow₃ hglobal
    exact ⟨grow.trans grow₄ hglobal, rooted⟩
  | argsEnd _ => exact growsAt_of_allocates (Store.ofList_chain _ _).1 rooted
  | argsError _ _ _ ih => exact ih hglobal rooted hg
  | argsNext _ _ _ _ ih ihOthers =>
    obtain ⟨grow, rooted⟩ := ih hglobal rooted hg
    obtain ⟨grow', rooted⟩ := ihOthers (Nat.lt_of_lt_of_le hglobal grow.size_le) rooted hg
    exact ⟨grow.trans grow' hglobal, rooted⟩
  | bodyEnd _ => exact ⟨.refl global _, rooted⟩
  | bodyNext _ _ _ ih ihOthers =>
    obtain ⟨grow, rooted⟩ := ih hglobal rooted hg
    obtain ⟨grow', rooted⟩ := ihOthers (Nat.lt_of_lt_of_le hglobal grow.size_le) rooted hg
    exact ⟨grow.trans grow' hglobal, rooted⟩
  | applyError _ => exact ⟨.refl global _, rooted⟩
  | applyArgsError _ _ => exact ⟨.refl global _, rooted⟩
  | applySubr _ => exact growsAt_of_allocates (Store.allocates_call _ _ _) rooted
  | @applyClosure k c args v env s s₁ s₂ _ closure frame _ ih =>
    have allocates := s.allocates_extend c.env c.params args
    have henv : (s.extend c.env c.params args).1.globalFrames = .cons global := rooted k c closure
    rw [frame] at allocates henv
    obtain ⟨grow, rooted⟩ := growsAt_of_allocates allocates rooted
    obtain ⟨grow', rooted⟩ := ih (Nat.lt_of_lt_of_le hglobal grow.size_le) rooted henv
    exact ⟨grow.trans grow' hglobal, rooted⟩
  | applyOther _ _ _ _ => exact growsAt_of_allocates (Store.allocates_error _ _) rooted

end PocketLisp
