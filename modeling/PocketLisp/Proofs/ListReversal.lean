import PocketLisp.Proofs.CellChains

/-!
# Reversal in place, cell by cell

Reversing a list in place turns the links between its cells around. The cars stay, and so does all
else in the store. Whoever holds a cell of the list then sees the cells that were in front of it.
Whatever ended the list is dropped, so a second reversal gives back the store that there was at
first if that was `nil`, and only then.
-/
namespace PocketLisp

def firstOf (last : Value) (cells : List Nat) : Value :=
  (cells.head?.map Value.cons).getD last

namespace Chain
variable {s t : Store} {last last' v : Value} {cells : List Nat} {xs : List Value}

theorem eq_firstOf (h : Chain s last v cells xs) : v = firstOf last cells := by
  cases h <;> rfl

theorem length_eq (h : Chain s last v cells xs) : xs.length = cells.length := by
  induction h with
  | nil => rfl
  | cons _ _ ih => rw [List.length_cons, List.length_cons, ih]

theorem drop (h : Chain s last v cells xs) (n : Nat) :
    Chain s last (firstOf last (cells.drop n)) (cells.drop n) (xs.drop n) := by
  induction h generalizing n with
  | nil =>
    rw [List.drop_nil, List.drop_nil]
    exact .nil
  | cons cell tail ih =>
    cases n with
    | zero => exact .cons cell tail
    | succ n => exact ih n

/-- A cell of a chain holds its element and leads to the rest of the chain. -/
theorem uncons {a : Nat} (h : Chain s last v (a :: cells) xs) : ∃ x ys, xs = x :: ys ∧
    s.cells[a]? = some ⟨x, firstOf last cells⟩ ∧ Chain s last (firstOf last cells) cells ys := by
  cases h with
  | cons cell tail =>
    obtain rfl := tail.eq_firstOf
    exact ⟨_, _, rfl, cell, tail⟩

theorem last_unique (h : Chain s last v cells xs) {ys : List Value}
    (h' : Chain s last' v cells ys) : last = last' := by
  induction h generalizing ys with
  | nil =>
    cases h'
    rfl
  | cons cell _ ih =>
    cases h' with
    | cons cell' tail' =>
      cases cell.symm.trans cell'
      exact ih tail'

theorem getElem?_eq (h : Chain s last v cells xs) (h' : Chain t last v cells xs) :
    ∀ a ∈ cells, t.cells[a]? = s.cells[a]? := by
  induction h with
  | nil => exact List.forall_mem_nil _
  | cons cell tail ih =>
    cases h' with
    | cons cell' tail' =>
      obtain rfl := tail.eq_firstOf
      obtain rfl := tail'.eq_firstOf
      exact List.forall_mem_cons.2 ⟨cell'.trans cell.symm, ih tail'⟩

end Chain

namespace Store

/-- A round of the reversal changes nothing but a cdr. -/
theorem setCdr_eq (s : Store) (v x : Value) :
    s.setCdr v x = { s with cells := (s.setCdr v x).cells } ∧
      ∀ a : Nat, ((s.setCdr v x).cells[a]?).map Cell.car = (s.cells[a]?).map Cell.car := by
  cases v with
  | cons b =>
    refine ⟨rfl, fun a => ?_⟩
    by_cases same : a = b
    · subst same
      cases cell : s.cells[a]? with
      | none => simp [setCdr, Array.getElem?_modify, cell]
      | some c => simp [getElem?_setCdr_self cell]
    · rw [getElem?_setCdr_of_ne s same]
  | _ => exact ⟨rfl, fun _ => rfl⟩

/-- The rounds of the reversal change nothing but cdrs, whatever they come upon. -/
theorem reverseOnto_eq (fuel : Nat) (v done : Value) (s : Store) :
    (reverseOnto fuel v done s).2 = { s with cells := (reverseOnto fuel v done s).2.cells } ∧
      ∀ a : Nat, ((reverseOnto fuel v done s).2.cells[a]?).map Cell.car =
        (s.cells[a]?).map Cell.car := by
  induction fuel generalizing v done s with
  | zero => exact ⟨rfl, fun _ => rfl⟩
  | succ fuel ih =>
    simp only [reverseOnto]
    split
    · next c _ =>
      obtain ⟨rest, cars⟩ := s.setCdr_eq v done
      obtain ⟨rest', cars'⟩ := ih c.cdr v (s.setCdr v done)
      refine ⟨?_, fun a => (cars' a).trans (cars a)⟩
      rw [rest'.trans (by rw [rest])]
    · exact ⟨rfl, fun _ => rfl⟩

theorem reverse_eq (s : Store) (v : Value) :
    (s.reverse v).2 = { s with cells := (s.reverse v).2.cells } ∧
      ∀ a : Nat, ((s.reverse v).2.cells[a]?).map Cell.car = (s.cells[a]?).map Cell.car :=
  reverseOnto_eq s.cells.size v .nil s

/-- Reversal in place of a chain that ends in anything that is no cell. -/
theorem reverse_chain_to_nil {s : Store} {v last : Value} {cells : List Nat} {xs : List Value}
    (h : Chain s last v cells xs) (ends : s.cell? last = none) :
    Chain (s.reverse v).2 .nil (s.reverse v).1 cells.reverse xs.reverse ∧
      ∀ a ∉ cells, (s.reverse v).2.cells[a]? = s.cells[a]? := by
  have distinct := h.nodup ends
  obtain ⟨chain, -, frame⟩ :=
    reverseOnto_chain h ends distinct .nil (by simp) (h.length_le distinct)
  exact ⟨by simpa [reverse] using chain, frame⟩

end Store

section reversal

variable {s t u : Store} {v last head : Value} {cells : List Nat} {xs : List Value}

/-- What a cell of a list that has been turned around leads to. -/
theorem Chain.of_reverse (h : Chain t .nil head cells.reverse xs.reverse) {i a : Nat}
    (ha : cells[i]? = some a) :
    Chain t .nil (.cons a) (cells.take (i + 1)).reverse (xs.take (i + 1)).reverse := by
  obtain ⟨hi, -⟩ := List.getElem?_eq_some_iff.1 ha
  have length : xs.length = cells.length := by simpa using h.length_eq
  have rest := h.drop (cells.length - (i + 1))
  have cellsDropped :
      cells.reverse.drop (cells.length - (i + 1)) = (cells.take (i + 1)).reverse := by
    rw [List.drop_reverse, Nat.sub_sub_self hi]
  have xsDropped : xs.reverse.drop (cells.length - (i + 1)) = (xs.take (i + 1)).reverse := by
    rw [List.drop_reverse, length, Nat.sub_sub_self hi]
  have first : firstOf .nil (cells.take (i + 1)).reverse = .cons a := by
    rw [List.take_add_one, ha]
    simp [firstOf]
  rwa [cellsDropped, xsDropped, first] at rest

theorem Chain.cdr_of_reverse (h : Chain t .nil head cells.reverse xs.reverse) {i a : Nat}
    (ha : cells[i]? = some a) :
    (t.cells[a]?).map Cell.cdr = some (firstOf .nil (cells.take i).reverse) := by
  have rest := h.of_reverse ha
  rw [List.take_add_one, ha, Option.toList_some, List.reverse_append] at rest
  obtain ⟨x, ys, -, cell, -⟩ := rest.uncons
  rw [cell]
  rfl

/-- A second reversal turns the links back, and has dropped what ended the list. -/
theorem reverse_twice (chain : Chain s last v cells xs) (nonempty : cells ≠ [])
    (turned : Chain t .nil head cells.reverse xs.reverse)
    (frame : ∀ a ∉ cells, t.cells[a]? = s.cells[a]?) (rest : t = { s with cells := t.cells }) :
    (t.reverse head).1 = v ∧ ((t.reverse head).2 = s ↔ last = .nil) := by
  obtain ⟨again, frame'⟩ := Store.reverse_chain_to_nil turned rfl
  rw [List.reverse_reverse, List.reverse_reverse] at again
  have first : (t.reverse head).1 = v := by
    rw [again.eq_firstOf, chain.eq_firstOf]
    cases cells with
    | nil => exact absurd rfl nonempty
    | cons _ _ => rfl
  refine ⟨first, fun same => ?_, fun proper => ?_⟩
  · rw [same, first] at again
    exact chain.last_unique again
  · subst proper
    rw [first] at again
    have cells_eq : (t.reverse head).2.cells = s.cells := by
      refine Array.ext_getElem? fun a => ?_
      by_cases ha : a ∈ cells
      · exact chain.getElem?_eq again a ha
      · exact (frame' a (by simpa using ha)).trans (frame a ha)
    rw [(t.reverse_eq head).1, cells_eq, rest]

/-- Reversal in place of a list, proper or not: its last cell comes first, each other link is turned
around, and all else stays, the cars too. Whoever holds a cell sees that cell and those that were in
front of it. A second reversal restores the store exactly if the list was proper. -/
theorem reversal_in_place (chain : Chain s last v cells xs) (ends : s.cell? last = none) :
    ∃ head t, s.reverse v = (head, t) ∧
      head = (cells.getLast?.map Value.cons).getD .nil ∧
      (∀ i a b, cells[i]? = some a → cells[i + 1]? = some b →
        (t.cells[b]?).map Cell.cdr = some (.cons a)) ∧
      (∀ a, cells.head? = some a → (t.cells[a]?).map Cell.cdr = some .nil) ∧
      (∀ a : Nat, (t.cells[a]?).map Cell.car = (s.cells[a]?).map Cell.car) ∧
      (∀ a ∉ cells, t.cells[a]? = s.cells[a]?) ∧ t = { s with cells := t.cells } ∧
      (∀ i a, cells[i]? = some a →
        Chain t .nil (.cons a) (cells.take (i + 1)).reverse (xs.take (i + 1)).reverse) ∧
      (cells ≠ [] → ∃ u, t.reverse head = (v, u) ∧ (u = s ↔ last = .nil)) := by
  obtain ⟨turned, frame⟩ := Store.reverse_chain_to_nil chain ends
  obtain ⟨rest, cars⟩ := s.reverse_eq v
  generalize s.reverse v = r at turned frame rest cars ⊢
  obtain ⟨head, t⟩ := r
  refine ⟨head, t, rfl, ?_, fun i a b ha hb => ?_, fun a ha => ?_, cars, frame, rest,
    fun i a ha => turned.of_reverse ha, fun nonempty => ?_⟩
  · obtain rfl : head = firstOf .nil cells.reverse := turned.eq_firstOf
    rw [firstOf, List.head?_reverse]
  · rw [turned.cdr_of_reverse hb, List.take_add_one, ha]
    simp [firstOf]
  · rw [List.head?_eq_getElem?] at ha
    rw [turned.cdr_of_reverse ha]
    rfl
  · obtain ⟨first, restored⟩ := reverse_twice chain nonempty turned frame rest
    exact ⟨_, Prod.ext first rfl, restored⟩

/-- A dotted list of two cells, and another holder of its second cell. -/
theorem reversal_in_place_dotted : ∃ s v cells xs, Chain s (.sym ⟨1, "end"⟩) v cells xs ∧
    s.cell? (.sym ⟨1, "end"⟩) = none ∧ ∃ t, s.reverse v = (.cons 2, t) ∧
      Chain t .nil (.cons 2) [2, 1] [.nil, .cons 2] ∧ Chain t .nil (.cons 1) [1] [.cons 2] ∧
      t.cells[0]? = s.cells[0]? ∧ ∃ u, t.reverse (.cons 2) = (.cons 1, u) ∧ u ≠ s := by
  have chain : Chain
      ⟨#[⟨.cons 2, .nil⟩, ⟨.cons 2, .cons 2⟩, ⟨.nil, .sym ⟨1, "end"⟩⟩], #[], #[], 2, #[]⟩
      (.sym ⟨1, "end"⟩) (.cons 1) [1, 2] [.cons 2, .nil] := .cons rfl (.cons rfl .nil)
  obtain ⟨head, t, turned, rfl, -, -, -, frame, -, seen, again⟩ := reversal_in_place chain rfl
  obtain ⟨u, back, restored⟩ := again (by simp)
  exact ⟨_, _, _, _, chain, rfl, t, turned, seen 1 2 rfl, seen 0 1 rfl, frame 0 (by decide), u,
    back, fun same => absurd (restored.1 same) (by decide)⟩

end reversal

end PocketLisp
