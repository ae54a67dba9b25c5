import PocketLisp.Proofs.LexicalScope

/-!
# How parameters are bound

The frame of a call binds parameters to arguments as far as both lists go. The first place at which
a parameter stands tells what it is bound to, and all else is looked up further out. The lists may
be of any kind as long as they come to an end, and no cell that was there before is changed.
-/
namespace PocketLisp

/-- A list that comes to an end, with the given cars. What ends it is no cell. -/
def Store.FiniteList (s : Store) (v : Value) (xs : List Value) : Prop :=
  ∃ last cells, Chain s last v cells xs ∧ ∀ a, last ≠ .cons a

/-- The frames of the environment come to an end, and so does each of them. Where they hold a cell,
it is in the store. -/
def Env.FiniteFrames (e : Env) (s : Store) (frames : List Value) : Prop :=
  s.FiniteList e.frames frames ∧
    ∀ frame ∈ frames, ∃ pairs, s.FiniteList frame pairs ∧ ∀ a, .cons a ∈ pairs → a < s.cells.size

section lists

variable {s t : Store} {v key : Value} {xs : List Value}

theorem Store.cell?_of_not_cons (s : Store) (h : ∀ a, v ≠ .cons a) : s.cell? v = none := by
  cases v with
  | cons a => exact absurd rfl (h a)
  | _ => rfl

theorem Store.FiniteList.elements_eq (h : s.FiniteList v xs) : s.elements v = xs := by
  obtain ⟨last, cells, chain, ends⟩ := h
  exact chain.elements_eq (s.cell?_of_not_cons ends)

theorem Store.FiniteList.grow (h : s.FiniteList v xs) (grow : Allocates s t) :
    t.FiniteList v xs := by
  obtain ⟨last, cells, chain, ends⟩ := h
  exact ⟨last, cells, chain.congr fun a ha => grow.cells a (chain.lt_size a ha), ends⟩

theorem find?_binds_grow (grow : Allocates s t) (inside : ∀ a, .cons a ∈ xs → a < s.cells.size) :
    xs.find? (t.binds key) = xs.find? (s.binds key) := by
  refine List.find?_congr fun x hx => ?_
  have same : t.cell? x = s.cell? x := by
    cases x with
    | cons a => exact grow.cells a (inside a hx)
    | _ => rfl
  rw [Store.binds, Store.binds, same]

/-- What an environment binds does not change while cells are added. -/
theorem Env.FiniteFrames.findSome?_grow {e : Env} {frames : List Value}
    (h : e.FiniteFrames s frames) (grow : Allocates s t) (key : Value) :
    frames.findSome? (fun frame => (t.elements frame).find? (t.binds key)) =
      s.findPair? e.frames key := by
  rw [Store.findPair?, h.1.elements_eq]
  refine findSome?_congr fun frame hframe => ?_
  obtain ⟨pairs, list, inside⟩ := h.2 frame hframe
  rw [(list.grow grow).elements_eq, list.elements_eq]
  exact find?_binds_grow grow inside

/-- Among cells of pairs, the first one that binds a key is that of the first pair of the key. -/
theorem find?_pairs {pairs : List Nat} {entries : List (Value × Value)}
    (hold : List.Forall₂ s.IsPair pairs entries) (key : Value) :
    Option.Rel (fun pair entry => s.cell? pair = some ⟨entry.1, entry.2⟩)
      ((pairs.map Value.cons).find? (s.binds key))
      (entries.find? (fun entry => decide (entry.1 = key))) := by
  induction hold with
  | nil => exact .none
  | @cons p entry pairs entries pair _ ih =>
    have cell : s.cell? (.cons p) = some ⟨entry.1, entry.2⟩ := pair
    have binds : s.binds key (.cons p) = decide (entry.1 = key) := by
      rw [Store.binds, cell]
    rw [List.map_cons, List.find?_cons, List.find?_cons, binds]
    cases decide (entry.1 = key) with
    | true => exact .some cell
    | false => exact ih

end lists

section parameters

variable {ps vs : List Value} {key : Value}

/-- The first place of a key tells which pair of the two lists is its first one. -/
theorem find?_zip_of_first {i : Nat} {v : Value} (param : ps[i]? = some key)
    (arg : vs[i]? = some v) (first : ∀ j < i, ps[j]? ≠ some key) :
    (ps.zip vs).find? (fun entry => decide (entry.1 = key)) = some (key, v) := by
  have place : (ps.zip vs)[i]? = some (key, v) := List.getElem?_zip_eq_some.2 ⟨param, arg⟩
  obtain ⟨hi, hplace⟩ := List.getElem?_eq_some_iff.1 place
  refine List.find?_eq_some_iff_getElem.2 ⟨by simp, i, hi, hplace, fun j hj => ?_⟩
  have hlt : j < ps.length := by
    rw [List.length_zip] at hi
    omega
  have other := first j hj
  rw [List.getElem?_eq_getElem hlt] at other
  simpa using other

theorem find?_zip_of_none (missing : ∀ (i : Nat) (v : Value), ps[i]? = some key → vs[i]? ≠ some v) :
    (ps.zip vs).find? (fun entry => decide (entry.1 = key)) = none := by
  refine List.find?_eq_none.2 fun entry hentry => ?_
  obtain ⟨i, hi⟩ := List.mem_iff_getElem?.1 hentry
  obtain ⟨param, arg⟩ := List.getElem?_zip_eq_some.1 hi
  intro same
  have same : entry.1 = key := by simpa using same
  exact missing i entry.2 (same ▸ param) arg

end parameters

/-- The frames of a call are those of the environment with one more in front. -/
theorem Store.findPair?_extend {s : Store} {e : Env} {frames : List Value}
    (h : e.FiniteFrames s frames) (params args key : Value) :
    Option.Rel
      (fun pair entry => (s.extend e params args).2.cell? pair = some ⟨entry.1, entry.2⟩)
      (((s.extend e params args).2.elements (s.zip params args).1).find?
        ((s.extend e params args).2.binds key))
      (((s.elements params).zip (s.elements args)).find? (fun entry => decide (entry.1 = key))) ∧
    (s.extend e params args).2.findPair? (s.extend e params args).1.frames key =
      (((s.extend e params args).2.elements (s.zip params args).1).find?
        ((s.extend e params args).2.binds key)).or (s.findPair? e.frames key) := by
  obtain ⟨growZip, fresh, pairs, chain, new, newPairs, hold⟩ := s.zip_chain params args
  have grow := s.allocates_extend e params args
  have later : Allocates (s.zip params args).2 (s.extend e params args).2 :=
    (allocates_cons _ _ _).trans (allocates_newInner _ _ e)
  have frame : (s.extend e params args).2.elements (s.zip params args).1 =
      pairs.map Value.cons :=
    (chain.congr fun a ha => later.cells a (new a ha).2).elements_eq rfl
  have hold' : List.Forall₂ (s.extend e params args).2.IsPair pairs
      ((s.elements params).zip (s.elements args)) := by
    refine ((List.forall₂_and_left _ _).2 ⟨newPairs, hold⟩).imp ?_
    rintro p entry ⟨inside, pair⟩
    exact (later.cells p inside.2).trans pair
  refine ⟨frame ▸ find?_pairs hold' key, ?_⟩
  obtain ⟨last, cells, outer, ends⟩ := h.1.grow grow
  have whole : Chain (s.extend e params args).2 last (s.extend e params args).1.frames _ _ :=
    .cons (getElem?_cons_self (s.zip params args).2 (s.zip params args).1 e.frames) outer
  rw [findPair?, whole.elements_eq (cell?_of_not_cons _ ends), List.findSome?_cons,
    h.findSome?_grow grow]
  cases ((s.extend e params args).2.elements (s.zip params args).1).find?
    ((s.extend e params args).2.binds key) <;> rfl

/-- In the environment of a call a key is found in a pair with the argument at its first place among
the parameters, if there is an argument at that place. Any other key is found as in the environment
that has been extended, or missing like there. The new environment has the table and the global
environment of the old one, and no cell is changed. -/
theorem first_parameter_found {s : Store} {e : Env} {params args : Value}
    {frames ps vs : List Value} (hframes : e.FiniteFrames s frames)
    (hparams : s.FiniteList params ps) (hargs : s.FiniteList args vs) :
    ∃ inner s', e.extend params args s = .ok inner s' ∧
      inner.table = e.table ∧ inner.global = e.global ∧
      (∀ a < s.cells.size, s'.cells[a]? = s.cells[a]?) ∧
      ∀ key,
        (∀ (i : Nat) (v : Value), ps[i]? = some key → vs[i]? = some v →
          (∀ j < i, ps[j]? ≠ some key) →
          ∃ pair, inner.find? key s' = .ok (some pair) s' ∧ s'.cell? pair = some ⟨key, v⟩) ∧
        ((∀ (i : Nat) (v : Value), ps[i]? = some key → vs[i]? ≠ some v) →
          ∃ found, e.find? key s = .ok found s ∧ inner.find? key s' = .ok found s') := by
  refine ⟨_, _, e.extend_apply params args s, rfl, rfl,
    (s.allocates_extend e params args).cells, fun key => ?_⟩
  obtain ⟨own, whole⟩ := s.findPair?_extend hframes params args key
  rw [hparams.elements_eq, hargs.elements_eq] at own
  simp only [Env.find?, Run.look_apply, whole]
  constructor
  · intro i v param arg first
    rw [find?_zip_of_first param arg first] at own
    generalize ((s.extend e params args).2.elements (s.zip params args).1).find?
      ((s.extend e params args).2.binds key) = found at own
    cases own with
    | some cell => exact ⟨_, rfl, cell⟩
  · intro missing
    rw [find?_zip_of_none missing] at own
    generalize ((s.extend e params args).2.elements (s.zip params args).1).find?
      ((s.extend e params args).2.binds key) = found at own
    cases own
    exact ⟨_, rfl, rfl⟩

/-- A parameter that is repeated, and a further one for which there is no argument. Neither list
ends in `nil`. -/
theorem first_parameter_found_repeated : ∃ (e : Env) (s : Store) (params args x y a b : Value),
    e.FiniteFrames s [.cons 2] ∧ s.FiniteList params [x, x, y] ∧ s.FiniteList args [a, b] ∧
    x ≠ y ∧ ∃ inner s' pair, e.extend params args s = .ok inner s' ∧
      inner.find? x s' = .ok (some pair) s' ∧ s'.cell? pair = some ⟨x, a⟩ ∧
      inner.find? y s' = .ok (some (.cons 1)) s' := by
  let s : Store := ⟨#[⟨.cons 2, .nil⟩, ⟨.sym ⟨2, "y"⟩, .nil⟩, ⟨.cons 1, .nil⟩,
    ⟨.sym ⟨1, "x"⟩, .cons 4⟩, ⟨.sym ⟨1, "x"⟩, .cons 5⟩, ⟨.sym ⟨2, "y"⟩, .sym ⟨3, "a"⟩⟩,
    ⟨.sym ⟨3, "a"⟩, .cons 7⟩, ⟨.sym ⟨4, "b"⟩, .sym ⟨3, "a"⟩⟩], #[], #[[]], 5, #[]⟩
  let e : Env := ⟨0, .cons 0, 0, 0, .cons 0⟩
  have hframes : e.FiniteFrames s [.cons 2] := by
    refine ⟨⟨.nil, [0], .cons rfl .nil, nofun⟩, fun frame hframe => ?_⟩
    obtain rfl := List.mem_singleton.1 hframe
    refine ⟨[.cons 1], ⟨.nil, [2], .cons rfl .nil, nofun⟩, fun a ha => ?_⟩
    cases List.mem_singleton.1 ha
    decide
  have hparams : s.FiniteList (.cons 3) [.sym ⟨1, "x"⟩, .sym ⟨1, "x"⟩, .sym ⟨2, "y"⟩] :=
    ⟨_, [3, 4, 5], .cons rfl (.cons rfl (.cons rfl .nil)), nofun⟩
  have hargs : s.FiniteList (.cons 6) [.sym ⟨3, "a"⟩, .sym ⟨4, "b"⟩] :=
    ⟨_, [6, 7], .cons rfl (.cons rfl .nil), nofun⟩
  obtain ⟨inner, s', call, -, -, -, find⟩ := first_parameter_found hframes hparams hargs
  obtain ⟨pair, found, cell⟩ := (find (.sym ⟨1, "x"⟩)).1 0 _ rfl rfl nofun
  -- The third place of the parameters has no argument.
  obtain ⟨outer, here, same⟩ := (find (.sym ⟨2, "y"⟩)).2 fun i v param arg => by
    match i with
    | 0 | 1 => cases param
    | _ + 2 => cases arg
  cases (rfl : e.find? (.sym ⟨2, "y"⟩) s = .ok (some (.cons 1)) s).symm.trans here
  exact ⟨e, s, .cons 3, .cons 6, _, _, _, _, hframes, hparams, hargs, by decide, inner, s', pair,
    call, found, cell, same⟩

end PocketLisp
