import PocketLisp.ValueText
import PocketLisp.Proofs.ReadData

/-!
# Trees in the store

No cell of a finite tree is below itself, so a walk that is bounded by the number of cells reaches
all of the tree. Writing and comparing values that unfold to trees is then a matter of the trees.
-/
namespace PocketLisp

/-- A value that names no cell, as the tree of itself. -/
def Store.IsLeaf (s : Store) (v w : Value) : Prop := v = w ∧ s.cell? v = none

def Sexp.height {α : Type} : Sexp α → Nat
  | .atom _ => 0
  | .cons a d => max a.height d.height + 1

theorem Sexp.render_append {α : Type} (t : Sexp α) (spelling : Spelling α) (rest more : List Char) :
    t.render spelling (rest ++ more) = t.render spelling rest ++ more ∧
      t.renderTail spelling (rest ++ more) = t.renderTail spelling rest ++ more := by
  induction t generalizing rest with
  | atom a =>
    simp only [render, renderTail, List.append_assoc, true_and]
    split
    · rfl
    · simp
  | cons a d ihCar ihCdr =>
    simp only [render, renderTail, (ihCdr rest).2, (ihCar _).1, List.cons_append, and_self]

namespace Unfolds
variable {s : Store} {within : Nat → Prop}

theorem tree_unique {v : Value} {t u : Sexp Value} (h : Unfolds s s.IsLeaf within v t)
    (h' : Unfolds s s.IsLeaf within v u) : t = u := by
  induction h generalizing u with
  | atom h =>
    obtain ⟨rfl, hcell⟩ := h
    cases h' with
    | atom h' => rw [h'.1]
    | cons cell _ _ _ => simp [Store.cell?, cell] at hcell
  | cons cell _ _ _ ihCar ihCdr =>
    cases h' with
    | atom h' =>
      have hcell := h'.2
      simp [Store.cell?, cell] at hcell
    | cons cell' _ car cdr =>
      cases cell.symm.trans cell'
      rw [ihCar car, ihCdr cdr]

/-- The cells above a tree are distinct, and with the height of the tree they are no more than there
are cells. -/
theorem height_le {v : Value} {t : Sexp Value} (h : Unfolds s s.IsLeaf within v t)
    {above : List Nat} (distinct : above.Nodup) (inside : ∀ a ∈ above, a < s.cells.size)
    (higher : ∀ a ∈ above, ∃ u, Unfolds s s.IsLeaf within (.cons a) u ∧ t.height < u.height) :
    above.length + t.height ≤ s.cells.size := by
  induction h generalizing above with
  | atom h =>
    have sub : above ⊆ List.range s.cells.size := fun a ha => List.mem_range.2 (inside a ha)
    simpa [Sexp.height] using (distinct.subperm sub).length_le
  | @cons a x y t u cell kind car cdr ihCar ihCdr =>
    have fresh : a ∉ above := by
      intro ha
      obtain ⟨w, hw, hlt⟩ := higher a ha
      rw [hw.tree_unique (.cons cell kind car cdr)] at hlt
      omega
    have distinct' : (a :: above).Nodup := List.nodup_cons.2 ⟨fresh, distinct⟩
    have inside' : ∀ b ∈ a :: above, b < s.cells.size :=
      List.forall_mem_cons.2 ⟨(Array.getElem?_eq_some_iff.1 cell).1, inside⟩
    have higher' : ∀ {r : Sexp Value}, r.height < (Sexp.cons t u).height → ∀ b ∈ a :: above,
        ∃ w, Unfolds s s.IsLeaf within (.cons b) w ∧ r.height < w.height := by
      intro r hr b hb
      rcases List.mem_cons.1 hb with rfl | hb
      · exact ⟨_, .cons cell kind car cdr, hr⟩
      · obtain ⟨w, hw, hlt⟩ := higher b hb
        exact ⟨w, hw, Nat.lt_trans hr hlt⟩
    have hcar := ihCar distinct' inside' (higher' (by simp only [Sexp.height]; omega))
    have hcdr := ihCdr distinct' inside' (higher' (by simp only [Sexp.height]; omega))
    simp only [List.length_cons, Sexp.height] at hcar hcdr ⊢
    omega

theorem treeWithin_eq {v : Value} {t : Sexp Value} (h : Unfolds s s.IsLeaf within v t) {fuel : Nat}
    (enough : t.height ≤ fuel) : s.treeWithin fuel v = t := by
  induction h generalizing fuel with
  | atom h =>
    obtain ⟨rfl, hcell⟩ := h
    cases fuel with
    | zero => rfl
    | succ fuel => simp only [Store.treeWithin, hcell]
  | cons cell _ _ _ ihCar ihCdr =>
    simp only [Sexp.height] at enough
    obtain ⟨fuel, rfl⟩ : ∃ n, fuel = n + 1 := ⟨fuel - 1, by omega⟩
    simp only [Store.treeWithin, Store.cell?, cell]
    rw [ihCar (by omega), ihCdr (by omega)]

/-- The bounded walk finds the tree that a value unfolds to. -/
theorem tree_eq {v : Value} {t : Sexp Value} (h : Unfolds s s.IsLeaf within v t) :
    s.tree v = t := by
  have hle := h.height_le .nil (by simp) (by simp)
  exact h.treeWithin_eq (by simpa using hle)

section leaves

variable {α : Type} {leaf : Value → α → Prop} {t : Sexp α}
  (noCell : ∀ (v : Value) (a : α), leaf v a → s.cell? v = none)
include noCell

theorem leaves {v : Value} (h : Unfolds s leaf within v t) :
    ∃ u, Unfolds s s.IsLeaf within v u := by
  induction h with
  | atom h => exact ⟨_, .atom ⟨rfl, noCell _ _ h⟩⟩
  | cons cell kind _ _ ihCar ihCdr =>
    obtain ⟨t, ihCar⟩ := ihCar
    obtain ⟨u, ihCdr⟩ := ihCdr
    exact ⟨_, .cons cell kind ihCar ihCdr⟩

theorem tree_cons {a : Nat} {x y : Value} (cell : s.cells[a]? = some ⟨x, y⟩)
    (h : Unfolds s leaf within (.cons a) t) : s.tree (.cons a) = .cons (s.tree x) (s.tree y) := by
  obtain ⟨u, hu⟩ := h.leaves noCell
  cases hu with
  | atom h =>
    have hcell := h.2
    simp [Store.cell?, cell] at hcell
  | cons cell' kind car cdr =>
    cases cell.symm.trans cell'
    rw [car.tree_eq, cdr.tree_eq]
    exact tree_eq (.cons cell kind car cdr)

theorem tree_atom {v : Value} {a : α} (h : leaf v a) : s.tree v = .atom v :=
  have leaf' : Unfolds s s.IsLeaf (fun _ => True) v (.atom v) := .atom ⟨rfl, noCell v a h⟩
  leaf'.tree_eq

theorem render {spelling : Spelling α} (spelled : ∀ (v : Value) (a : α), leaf v a →
      atomText v = spelling.text a ∧ (v = .nil ↔ spelling.isNil a = true))
    {v : Value} (h : Unfolds s leaf within v t) (rest : List Char) :
    (s.tree v).render valueSpelling rest = t.render spelling rest ∧
      (s.tree v).renderTail valueSpelling rest = t.renderTail spelling rest := by
  induction h generalizing rest with
  | @atom v a h =>
    obtain ⟨htext, hnil⟩ := spelled v a h
    rw [tree_atom noCell h]
    have hisNil : valueSpelling.isNil v = spelling.isNil a := by
      rw [Bool.eq_iff_iff, ← hnil]
      simp [valueSpelling]
    simp only [Sexp.render, Sexp.renderTail, hisNil]
    rw [show valueSpelling.text v = spelling.text a from htext]
    exact ⟨rfl, rfl⟩
  | cons cell kind car cdr ihCar ihCdr =>
    rw [tree_cons noCell cell (.cons cell kind car cdr)]
    simp only [Sexp.render, Sexp.renderTail]
    rw [(ihCdr rest).2, (ihCar _).1]
    exact ⟨rfl, rfl⟩

theorem print_eq {spelling : Spelling α} (spelled : ∀ (v : Value) (a : α), leaf v a →
      atomText v = spelling.text a ∧ (v = .nil ↔ spelling.isNil a = true))
    {v : Value} (h : Unfolds s leaf within v t) : s.print v = t.written spelling := by
  rw [Store.print, Sexp.written, Sexp.written, (h.render noCell spelled []).1]

theorem equal (same : ∀ (v w : Value) (a : α), leaf v a → leaf w a → equalAtoms v w = true)
    {v w : Value} (h : Unfolds s leaf within v t) (h' : Unfolds s leaf within w t) :
    s.equal v w = true := by
  rw [Store.equal]
  induction h generalizing w with
  | atom h =>
    cases h' with
    | atom h' =>
      rw [tree_atom noCell h, tree_atom noCell h']
      exact same _ _ _ h h'
  | cons cell kind car cdr ihCar ihCdr =>
    cases h' with
    | cons cell' kind' car' cdr' =>
      rw [tree_cons noCell cell (.cons cell kind car cdr),
        tree_cons noCell cell' (.cons cell' kind' car' cdr')]
      simp only [Sexp.agree]
      rw [ihCar car', ihCdr cdr']
      rfl

end leaves

end Unfolds

end PocketLisp
