import PocketLisp.Proofs.CellChains
import Mathlib.Data.List.Forall2

/-!
# Stores that only grow

Most operations on a store add to it and change nothing that was there: every cell, every closure
and every interned symbol stays. A new list, also one that has been reversed in place while it was
built, consists of new cells.
-/
namespace PocketLisp

/-- Everything in the first store is in the second one, unchanged. -/
structure Extends (s s' : Store) : Prop where
  cells : ∀ (a : Nat) (c : Cell), s.cells[a]? = some c → s'.cells[a]? = some c
  closures : ∀ (k : Nat) (c : Closure), s.closures[k]? = some c → s'.closures[k]? = some c
  symbols : ∀ (table : Nat) (name : String) (sym : Symbol),
    s.findSymbol? table name = some sym → s'.findSymbol? table name = some sym

namespace Extends
variable {s t u : Store}

theorem refl (s : Store) : Extends s s := ⟨fun _ _ h => h, fun _ _ h => h, fun _ _ _ h => h⟩

theorem trans (h : Extends s t) (h' : Extends t u) : Extends s u where
  cells a c hc := h'.cells a c (h.cells a c hc)
  closures k c hc := h'.closures k c (h.closures k c hc)
  symbols table name sym hs := h'.symbols table name sym (h.symbols table name sym hs)

theorem size_le (h : Extends s t) : s.cells.size ≤ t.cells.size := by
  by_contra hlt
  have hsome : s.cells[t.cells.size]? = some s.cells[t.cells.size] :=
    Array.getElem?_eq_getElem (by omega)
  have := (Array.getElem?_eq_some_iff.1 (h.cells _ _ hsome)).1
  omega

theorem getElem?_of_lt (h : Extends s t) {a : Nat} (ha : a < s.cells.size) :
    t.cells[a]? = s.cells[a]? := by
  rw [Array.getElem?_eq_getElem ha]
  exact h.cells a _ (Array.getElem?_eq_getElem ha)

end Extends

/-- The second store has the cells of the first one and further ones, and nothing else is new. -/
structure Allocates (s s' : Store) : Prop where
  size_le : s.cells.size ≤ s'.cells.size
  cells : ∀ a < s.cells.size, s'.cells[a]? = s.cells[a]?
  closures : s'.closures = s.closures
  tables : s'.tables = s.tables

namespace Allocates
variable {s t u : Store}

theorem refl (s : Store) : Allocates s s := ⟨Nat.le_refl _, fun _ _ => rfl, rfl, rfl⟩

theorem trans (h : Allocates s t) (h' : Allocates t u) : Allocates s u where
  size_le := Nat.le_trans h.size_le h'.size_le
  cells a ha := (h'.cells a (Nat.lt_of_lt_of_le ha h.size_le)).trans (h.cells a ha)
  closures := h'.closures.trans h.closures
  tables := h'.tables.trans h.tables

/-- Relinking cells that are new adds no change to what was there before. -/
theorem relink (h : Allocates s t) (h' : Relinks t u)
    (hcells : ∀ a < s.cells.size, u.cells[a]? = t.cells[a]?) : Allocates s u where
  size_le := by rw [h'.size]; exact h.size_le
  cells a ha := (hcells a ha).trans (h.cells a ha)
  closures := h'.closures.trans h.closures
  tables := h'.tables.trans h.tables

theorem toExtends (h : Allocates s t) : Extends s t where
  cells a c hc := (h.cells a (Array.getElem?_eq_some_iff.1 hc).1).trans hc
  closures k c hc := by rw [h.closures]; exact hc
  symbols table name sym hs := by
    simpa only [Store.findSymbol?, Store.symbols, h.tables] using hs

end Allocates

/-- The second store has everything that the first one has, and no further closure or symbol
table. -/
structure AddsData (s s' : Store) : Prop extends Extends s s' where
  sameClosures : s'.closures = s.closures
  tableCount : s'.tables.size = s.tables.size

namespace AddsData
variable {s t u : Store}

theorem refl (s : Store) : AddsData s s := ⟨.refl s, rfl, rfl⟩

theorem trans (h : AddsData s t) (h' : AddsData t u) : AddsData s u :=
  ⟨h.toExtends.trans h'.toExtends, h'.sameClosures.trans h.sameClosures,
    h'.tableCount.trans h.tableCount⟩

end AddsData

theorem Allocates.addsData {s s' : Store} (h : Allocates s s') : AddsData s s' :=
  ⟨h.toExtends, h.closures, by rw [h.tables]⟩

namespace Store

theorem allocates_cons (s : Store) (x y : Value) : Allocates s (s.cons x y).2 where
  size_le := by rw [size_cons]; omega
  cells _ ha := getElem?_cons_of_lt ha x y
  closures := rfl
  tables := rfl

theorem allocates_error (s : Store) (message : String) : Allocates s (s.error message).2 :=
  ⟨Nat.le_refl _, fun _ _ => rfl, rfl, rfl⟩

theorem allocates_num (s : Store) (n : Fixnum) : Allocates s (s.num n).2 :=
  ⟨Nat.le_refl _, fun _ _ => rfl, rfl, rfl⟩

theorem allocates_newRoot (s : Store) (frames : Value) (table : Nat) :
    Allocates s (s.newRoot frames table).2 :=
  ⟨Nat.le_refl _, fun _ _ => rfl, rfl, rfl⟩

theorem allocates_newInner (s : Store) (frames : Value) (outer : Env) :
    Allocates s (s.newInner frames outer).2 :=
  ⟨Nat.le_refl _, fun _ _ => rfl, rfl, rfl⟩

theorem closure_eq_iff {s s' : Store} {params body f : Value} {env : Env} :
    s.closure params body env = (f, s') ↔ f = .expr s.closures.size ∧
      s' = { s with closures := s.closures.push ⟨params, body, env⟩ } := by
  rw [closure, Prod.mk.injEq, eq_comm, @eq_comm _ _ s']

theorem extends_closure (s : Store) (params body : Value) (env : Env) :
    Extends s (s.closure params body env).2 where
  cells _ _ hc := hc
  closures k c hc := by
    simp only [closure]
    rw [Array.getElem?_push_lt (Array.getElem?_eq_some_iff.1 hc).1]
    rw [Array.getElem?_eq_getElem (Array.getElem?_eq_some_iff.1 hc).1] at hc
    exact hc
  symbols _ _ _ hs := hs

/-- Interning a name leaves the symbols of all other names in their places. -/
theorem findSymbol?_intern_of_some {s : Store} {table t : Nat} {name n : String} {sym : Symbol}
    (h : s.findSymbol? t n = some sym) : (s.intern table name).2.findSymbol? t n = some sym := by
  unfold intern
  split
  · exact h
  · split
    · exact h
    · next hnone =>
      simp only [findSymbol?, symbols, Array.getElem?_modify]
      by_cases ht : table = t
      · subst ht
        -- The new symbol stands in front, under a name that had no symbol.
        have hne : name ≠ n := by
          rintro rfl
          rw [hnone] at h
          cases h
        cases hs : s.tables[table]? with
        | none => simp [findSymbol?, symbols, hs] at h
        | some syms =>
          simp only [findSymbol?, symbols, hs, Option.getD_some] at h
          simpa [List.find?_cons, hne] using h
      · simpa only [findSymbol?, symbols, ht, if_false] using h

theorem closures_intern (s : Store) (table : Nat) (name : String) :
    (s.intern table name).2.closures = s.closures := by
  unfold intern
  split
  · rfl
  · split <;> rfl

theorem extends_intern (s : Store) (table : Nat) (name : String) :
    Extends s (s.intern table name).2 where
  cells a c hc := by rw [cells_intern]; exact hc
  closures k c hc := by rw [closures_intern]; exact hc
  symbols _ _ _ h := findSymbol?_intern_of_some h

theorem addsData_intern (s : Store) (table : Nat) (name : String) :
    AddsData s (s.intern table name).2 where
  toExtends := extends_intern s table name
  sameClosures := closures_intern s table name
  tableCount := by
    unfold intern
    split
    · rfl
    · split
      · rfl
      · exact Array.size_modify

theorem addsData_internAll (s : Store) (table : Nat) (names : List String) :
    AddsData s (s.internAll table names) := by
  induction names generalizing s with
  | nil => exact .refl s
  | cons name names ih => exact (addsData_intern s table name).trans (ih _)

def IsNew (s s' : Store) (a : Nat) : Prop := s.cells.size ≤ a ∧ a < s'.cells.size

theorem pushAll_chain {s : Store} {last done : Value} {cells : List Nat} {ys : List Value}
    (xs : List Value) (h : Chain s last done cells ys) :
    Allocates s (pushAll xs done s).2 ∧
      ∃ fresh, Chain (pushAll xs done s).2 last (pushAll xs done s).1 (fresh ++ cells)
          (xs.reverse ++ ys) ∧
        fresh.Nodup ∧ ∀ a ∈ fresh, IsNew s (pushAll xs done s).2 a := by
  induction xs generalizing s done cells ys with
  | nil => exact ⟨.refl s, [], by simpa [pushAll] using h, .nil, by simp⟩
  | cons x xs ih =>
    have grow := allocates_cons s x done
    have next : Chain (s.cons x done).2 last (s.cons x done).1 (s.cells.size :: cells) (x :: ys) :=
      .cons (getElem?_cons_self s x done) (h.congr fun a ha => grow.cells a (h.lt_size a ha))
    obtain ⟨grow', fresh, chain, distinct, new⟩ := ih next
    have hsize := size_cons s x done
    refine ⟨grow.trans grow', fresh ++ [s.cells.size], ?_, ?_, fun a ha => ?_⟩
    · simpa [pushAll] using chain
    · refine List.nodup_append.2 ⟨distinct, by simp, fun a ha b hb hab => ?_⟩
      have := (new a ha).1
      simp only [List.mem_singleton] at hb
      omega
    · have hmore := grow'.size_le
      rcases List.mem_append.1 ha with ha | ha
      · exact ⟨by have := (new a ha).1; omega, (new a ha).2⟩
      · rw [List.mem_singleton.1 ha]
        exact ⟨Nat.le_refl _, by simp only [pushAll]; omega⟩

theorem ofList_chain (s : Store) (xs : List Value) :
    Allocates s (s.ofList xs).2 ∧ ∃ fresh, Chain (s.ofList xs).2 .nil (s.ofList xs).1 fresh xs ∧
      ∀ a ∈ fresh, IsNew s (s.ofList xs).2 a := by
  obtain ⟨grow, fresh, chain, distinct, new⟩ :=
    pushAll_chain xs (Chain.nil : Chain s .nil .nil [] [])
  rw [List.append_nil, List.append_nil] at chain
  obtain ⟨turned, relinks, frame⟩ := reverse_chain chain distinct
  rw [List.reverse_reverse] at turned
  refine ⟨grow.relink relinks fun a ha => frame a fun hmem => ?_, fresh.reverse, turned, ?_⟩
  · have := (new a hmem).1
    omega
  · intro a ha
    obtain ⟨low, high⟩ := new a (List.mem_reverse.1 ha)
    exact ⟨low, by simp only [ofList, relinks.size]; exact high⟩

def IsPair (s : Store) (p : Nat) (entry : Value × Value) : Prop :=
  s.cells[p]? = some ⟨entry.1, entry.2⟩

theorem pushPairs_chain {s : Store} {last done : Value} {cells : List Nat} {ys : List Value}
    (entries : List (Value × Value)) (h : Chain s last done cells ys) :
    Allocates s (pushPairs entries done s).2 ∧
      ∃ fresh pairs, Chain (pushPairs entries done s).2 last (pushPairs entries done s).1
          (fresh ++ cells) (pairs.map Value.cons ++ ys) ∧
        fresh.Nodup ∧ (∀ a ∈ fresh, IsNew s (pushPairs entries done s).2 a) ∧
        (∀ p ∈ pairs, IsNew s (pushPairs entries done s).2 p ∧ p ∉ fresh) ∧
        List.Forall₂ (IsPair (pushPairs entries done s).2) pairs entries.reverse := by
  induction entries generalizing s done cells ys with
  | nil => exact ⟨.refl s, [], [], by simpa [pushPairs] using h, .nil, by simp, by simp, .nil⟩
  | cons entry entries ih =>
    obtain ⟨k, v⟩ := entry
    have growPair := allocates_cons s k v
    have growNext := allocates_cons (s.cons k v).2 (s.cons k v).1 done
    have next : Chain ((s.cons k v).2.cons (s.cons k v).1 done).2 last
        ((s.cons k v).2.cons (s.cons k v).1 done).1 ((s.cons k v).2.cells.size :: cells)
        ((s.cons k v).1 :: ys) :=
      .cons (getElem?_cons_self _ _ _)
        (h.congr fun a ha => (growPair.trans growNext).cells a (h.lt_size a ha))
    obtain ⟨grow, fresh, pairs, chain, distinct, new, apart, hold⟩ := ih next
    have hpair := size_cons s k v
    have hnext := size_cons (s.cons k v).2 (s.cons k v).1 done
    have hmore := grow.size_le
    have pairCell : IsPair (pushPairs ((k, v) :: entries) done s).2 s.cells.size (k, v) := by
      have : s.cells.size < (s.cons k v).2.cells.size := by omega
      exact (grow.cells _ (by omega)).trans
        ((growNext.cells _ this).trans (getElem?_cons_self s k v))
    refine ⟨(growPair.trans growNext).trans grow, fresh ++ [(s.cons k v).2.cells.size],
      pairs ++ [s.cells.size], ?_, ?_, fun a ha => ?_, fun p hp => ?_, ?_⟩
    · simpa [pushPairs, cons] using chain
    · refine List.nodup_append.2 ⟨distinct, by simp, fun a ha b hb hab => ?_⟩
      have := (new a ha).1
      simp only [List.mem_singleton] at hb
      omega
    · rcases List.mem_append.1 ha with ha | ha
      · exact ⟨by have := (new a ha).1; omega, (new a ha).2⟩
      · rw [List.mem_singleton.1 ha]
        exact ⟨by omega, by simp only [pushPairs]; omega⟩
    · rcases List.mem_append.1 hp with hp | hp
      · obtain ⟨⟨low, high⟩, hfresh⟩ := apart p hp
        refine ⟨⟨by omega, high⟩, ?_⟩
        intro hmem
        rcases List.mem_append.1 hmem with hmem | hmem
        · exact hfresh hmem
        · have := List.mem_singleton.1 hmem
          omega
      · rw [List.mem_singleton.1 hp]
        refine ⟨⟨Nat.le_refl _, by simp only [pushPairs]; omega⟩, ?_⟩
        intro hmem
        rcases List.mem_append.1 hmem with hmem | hmem
        · have := (new _ hmem).1
          omega
        · have := List.mem_singleton.1 hmem
          omega
    · rw [List.reverse_cons]
      exact List.rel_append hold (.cons pairCell .nil)

/-- A new list of pairs is a chain of new cells that hold the cells of the pairs, which are new
too. -/
theorem zip_chain (s : Store) (keys values : Value) :
    Allocates s (s.zip keys values).2 ∧ ∃ fresh pairs,
      Chain (s.zip keys values).2 .nil (s.zip keys values).1 fresh (pairs.map Value.cons) ∧
      (∀ a ∈ fresh, IsNew s (s.zip keys values).2 a) ∧
      (∀ p ∈ pairs, IsNew s (s.zip keys values).2 p) ∧
      List.Forall₂ (IsPair (s.zip keys values).2) pairs
        ((s.elements keys).zip (s.elements values)) := by
  obtain ⟨grow, fresh, pairs, chain, distinct, new, apart, hold⟩ :=
    pushPairs_chain ((s.elements keys).zip (s.elements values))
      (Chain.nil : Chain s .nil .nil [] [])
  rw [List.append_nil, List.append_nil] at chain
  obtain ⟨turned, relinks, frame⟩ := reverse_chain chain distinct
  rw [← List.map_reverse] at turned
  refine ⟨grow.relink relinks fun a ha => frame a fun hmem => ?_, fresh.reverse, pairs.reverse,
    turned, fun a ha => ?_, fun p hp => ?_, ?_⟩
  · have := (new a hmem).1
    omega
  · obtain ⟨low, high⟩ := new a (List.mem_reverse.1 ha)
    exact ⟨low, by simp only [zip, relinks.size]; exact high⟩
  · obtain ⟨low, high⟩ := (apart p (List.mem_reverse.1 hp)).1
    exact ⟨low, by simp only [zip, relinks.size]; exact high⟩
  · have kept : List.Forall₂ (IsPair (s.zip keys values).2) pairs
        ((s.elements keys).zip (s.elements values)).reverse := by
      refine ((List.forall₂_and_left _ _).2 ⟨apart, hold⟩).imp ?_
      rintro p entry ⟨⟨-, outside⟩, pair⟩
      exact (frame p outside).trans pair
    simpa using List.forall₂_reverse_iff.2 kept

end Store

end PocketLisp
