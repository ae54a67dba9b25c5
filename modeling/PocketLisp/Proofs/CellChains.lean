import PocketLisp.Environments
import Mathlib.Data.List.Nodup
import Mathlib.Data.List.Perm.Subperm

/-!
# Chains of cells

A chain lists the cells that a value leads to along their cdrs, with the cars that they hold. New
lists are chains of new cells. Reversing a chain in place turns it around and leaves every cell
outside it alone, so reversing what has just been built touches no cell that was there before.
-/
namespace PocketLisp

/-- The cdr chain from a value to `last` goes through the given cells, which hold the given cars. -/
inductive Chain (s : Store) (last : Value) : Value → List Nat → List Value → Prop where
  | nil : Chain s last last [] []
  | cons {a : Nat} {x rest : Value} {cells : List Nat} {xs : List Value}
      (cell : s.cells[a]? = some ⟨x, rest⟩) (tail : Chain s last rest cells xs) :
      Chain s last (.cons a) (a :: cells) (x :: xs)

namespace Chain
variable {s s' : Store} {last v : Value} {cells : List Nat} {xs : List Value}

theorem congr (h : Chain s last v cells xs) (hs : ∀ a ∈ cells, s'.cells[a]? = s.cells[a]?) :
    Chain s' last v cells xs := by
  induction h with
  | nil => exact .nil
  | cons cell _ ih =>
    refine .cons ((hs _ (by simp)).trans cell) (ih fun b hb => hs b ?_)
    exact List.mem_cons_of_mem _ hb

theorem lt_size (h : Chain s last v cells xs) : ∀ a ∈ cells, a < s.cells.size := by
  induction h with
  | nil => simp
  | cons cell _ ih =>
    intro b hb
    rcases List.mem_cons.1 hb with rfl | hb
    · exact (Array.getElem?_eq_some_iff.1 cell).1
    · exact ih b hb

theorem length_le (h : Chain s last v cells xs) (distinct : cells.Nodup) :
    cells.length ≤ s.cells.size := by
  have sub : cells ⊆ List.range s.cells.size := fun a ha => List.mem_range.2 (h.lt_size a ha)
  simpa using (distinct.subperm sub).length_le

/-- A value leads along one chain of cells to something that is no cell. -/
theorem unique (h : Chain s last v cells xs) (hlast : s.cell? last = none) {cells' : List Nat}
    {xs' : List Value} (h' : Chain s last v cells' xs') : cells = cells' := by
  induction h generalizing cells' xs' with
  | nil =>
    cases h' with
    | nil => rfl
    | cons cell _ => simp [Store.cell?, cell] at hlast
  | cons cell _ ih =>
    cases h' with
    | nil => simp [Store.cell?, cell] at hlast
    | cons cell' tail =>
      cases cell.symm.trans cell'
      rw [ih tail]

theorem exists_of_mem (h : Chain s last v cells xs) {a : Nat} (ha : a ∈ cells) :
    ∃ cells' xs', Chain s last (.cons a) cells' xs' ∧ cells'.length ≤ cells.length := by
  induction h with
  | nil => simp at ha
  | cons cell tail ih =>
    rcases List.mem_cons.1 ha with rfl | ha
    · exact ⟨_, _, .cons cell tail, Nat.le_refl _⟩
    · obtain ⟨cells', xs', chain, hle⟩ := ih ha
      exact ⟨cells', xs', chain, Nat.le_succ_of_le hle⟩

theorem nodup (h : Chain s last v cells xs) (hlast : s.cell? last = none) : cells.Nodup := by
  induction h with
  | nil => exact .nil
  | @cons a x rest cells xs cell tail ih =>
    refine List.nodup_cons.2 ⟨fun ha => ?_, ih⟩
    obtain ⟨cells', xs', chain, hle⟩ := tail.exists_of_mem ha
    rw [← (Chain.cons cell tail).unique hlast chain, List.length_cons] at hle
    omega

theorem elementsWithin_eq (h : Chain s last v cells xs) (hlast : s.cell? last = none) {fuel : Nat}
    (enough : cells.length ≤ fuel) : s.elementsWithin fuel v = xs := by
  induction h generalizing fuel with
  | nil =>
    cases fuel with
    | zero => rfl
    | succ fuel => simp only [Store.elementsWithin, hlast]
  | cons cell _ ih =>
    obtain ⟨fuel, rfl⟩ : ∃ n, fuel = n + 1 := ⟨fuel - 1, by simp at enough; omega⟩
    simp only [Store.elementsWithin, Store.cell?, cell]
    rw [ih (by simpa using enough)]

theorem elements_eq (h : Chain s last v cells xs) (hlast : s.cell? last = none) :
    s.elements v = xs :=
  h.elementsWithin_eq hlast (h.length_le (h.nodup hlast))

end Chain

/-- What a change of cells alone leaves in place: the closures, the symbols and the count of
cells. -/
structure Relinks (s s' : Store) : Prop where
  size : s'.cells.size = s.cells.size
  closures : s'.closures = s.closures
  tables : s'.tables = s.tables

theorem Relinks.refl (s : Store) : Relinks s s := ⟨rfl, rfl, rfl⟩

theorem Relinks.trans {s t u : Store} (h : Relinks s t) (h' : Relinks t u) : Relinks s u :=
  ⟨h'.size.trans h.size, h'.closures.trans h.closures, h'.tables.trans h.tables⟩

namespace Store

theorem relinks_setCdr (s : Store) (v x : Value) : Relinks s (s.setCdr v x) := by
  cases v <;> first | exact .refl s | exact ⟨Array.size_modify, rfl, rfl⟩

theorem relinks_setCar (s : Store) (v x : Value) : Relinks s (s.setCar v x) := by
  cases v <;> first | exact .refl s | exact ⟨Array.size_modify, rfl, rfl⟩

theorem relinks_reverseOnto (fuel : Nat) (v done : Value) (s : Store) :
    Relinks s (reverseOnto fuel v done s).2 := by
  induction fuel generalizing v done s with
  | zero => exact .refl s
  | succ fuel ih =>
    simp only [reverseOnto]
    split
    · exact (relinks_setCdr s v done).trans (ih _ _ _)
    · exact .refl s

theorem getElem?_setCdr_self {s : Store} {a : Nat} {c : Cell} (h : s.cells[a]? = some c)
    (x : Value) : (s.setCdr (.cons a) x).cells[a]? = some ⟨c.car, x⟩ := by
  simp [setCdr, Array.getElem?_modify, h]

theorem getElem?_setCdr_of_ne {a b : Nat} (s : Store) (h : b ≠ a) (x : Value) :
    (s.setCdr (.cons a) x).cells[b]? = s.cells[b]? := by
  simp [setCdr, Array.getElem?_modify, h.symm]

theorem getElem?_setCar_self {s : Store} {a : Nat} {c : Cell} (h : s.cells[a]? = some c)
    (x : Value) : (s.setCar (.cons a) x).cells[a]? = some ⟨x, c.cdr⟩ := by
  simp [setCar, Array.getElem?_modify, h]

theorem getElem?_setCar_of_ne {a b : Nat} (s : Store) (h : b ≠ a) (x : Value) :
    (s.setCar (.cons a) x).cells[b]? = s.cells[b]? := by
  simp [setCar, Array.getElem?_modify, h.symm]

theorem getElem?_cons_self (s : Store) (x y : Value) :
    (s.cons x y).2.cells[s.cells.size]? = some ⟨x, y⟩ := by
  simp [cons]

theorem getElem?_cons_of_lt {s : Store} {a : Nat} (h : a < s.cells.size) (x y : Value) :
    (s.cons x y).2.cells[a]? = s.cells[a]? := by
  simp only [cons]
  rw [Array.getElem?_push_lt h, Array.getElem?_eq_getElem h]

theorem size_cons (s : Store) (x y : Value) :
    (s.cons x y).2.cells.size = s.cells.size + 1 := by
  simp [cons]

/-- Reversal in place turns a chain of distinct cells around, in front of another chain that it
does not meet, and changes no other cell. -/
theorem reverseOnto_chain {last stop v done : Value} {s : Store} {cells doneCells : List Nat}
    {xs ys : List Value} (h : Chain s last v cells xs) (hlast : s.cell? last = none)
    (distinct : cells.Nodup) (hd : Chain s stop done doneCells ys)
    (apart : ∀ a ∈ cells, a ∉ doneCells) {fuel : Nat} (enough : cells.length ≤ fuel) :
    Chain (reverseOnto fuel v done s).2 stop (reverseOnto fuel v done s).1
        (cells.reverse ++ doneCells) (xs.reverse ++ ys) ∧
      Relinks s (reverseOnto fuel v done s).2 ∧
      ∀ b ∉ cells, (reverseOnto fuel v done s).2.cells[b]? = s.cells[b]? := by
  induction fuel generalizing s v done cells doneCells xs ys with
  | zero =>
    cases h with
    | nil => exact ⟨by simpa [reverseOnto] using hd, .refl s, fun _ _ => rfl⟩
    | cons _ _ => simp at enough
  | succ fuel ih =>
    cases h with
    | nil =>
      simp only [reverseOnto, hlast]
      exact ⟨by simpa using hd, .refl s, fun _ _ => trivial⟩
    | @cons a x rest cells xs cell tail =>
      have ha : a ∉ cells := (List.nodup_cons.1 distinct).1
      have hframe : ∀ b, b ≠ a → (s.setCdr (.cons a) done).cells[b]? = s.cells[b]? :=
        fun b hb => getElem?_setCdr_of_ne s hb done
      -- The cell in front moves over to the part that has been reversed.
      have tail' : Chain (s.setCdr (.cons a) done) last rest cells xs :=
        tail.congr fun b hb => hframe b (fun e => ha (e ▸ hb))
      have done' : Chain (s.setCdr (.cons a) done) stop (.cons a) (a :: doneCells) (x :: ys) :=
        .cons (getElem?_setCdr_self cell done) (hd.congr fun b hb =>
          hframe b (fun e => apart a (by simp) (e ▸ hb)))
      have last' : (s.setCdr (.cons a) done).cell? last = none := by
        cases last with
        | cons b =>
          have hb : b ≠ a := by
            rintro rfl
            simp [cell?, cell] at hlast
          simpa [cell?, hframe b hb] using hlast
        | _ => rfl
      have apart' : ∀ b ∈ cells, b ∉ a :: doneCells := by
        intro b hb hmem
        rcases List.mem_cons.1 hmem with rfl | hmem
        · exact ha hb
        · exact apart b (List.mem_cons_of_mem _ hb) hmem
      obtain ⟨chain, relinks, frame⟩ := ih tail' last' (List.nodup_cons.1 distinct).2 done'
        apart' (by simpa using enough)
      simp only [reverseOnto, cell?, cell]
      refine ⟨by simpa using chain, (relinks_setCdr s _ _).trans relinks, ?_⟩
      intro b hb
      rw [List.mem_cons, not_or] at hb
      rw [frame b hb.2, hframe b hb.1]

/-- Reversal in place of a chain of distinct cells that ends in `nil`. -/
theorem reverse_chain {s : Store} {v : Value} {cells : List Nat} {xs : List Value}
    (h : Chain s .nil v cells xs) (distinct : cells.Nodup) :
    Chain (s.reverse v).2 .nil (s.reverse v).1 cells.reverse xs.reverse ∧
      Relinks s (s.reverse v).2 ∧ ∀ b ∉ cells, (s.reverse v).2.cells[b]? = s.cells[b]? := by
  simpa [reverse] using reverseOnto_chain h rfl distinct .nil (by simp) (h.length_le distinct)

end Store

end PocketLisp
