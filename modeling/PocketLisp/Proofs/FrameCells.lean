import PocketLisp.Proofs.DataCells

/-!
# The cells of a session are those of data and those of frame lists

Each cell of a session is data that does not go through the cell of the global frame, or one of a
frame list, which leads to that cell. The values that an evaluation goes on with are such data, and
so are all values that are bound and the parts of all closures. Every step keeps this, since all
that it adds is data or the frame of a call, and all that it changes is what the global frame binds.
-/
namespace PocketLisp

/-- Data that does not go through the cell of the global frame. -/
abbrev AwayFrom (global : Nat) (s : Store) (v : Value) : Prop := IsData (· ≠ global) s v

/-- A list of frames that bind data, with the cell of the global frame at its end. -/
inductive IsFrameList (global : Nat) (s : Store) : Value → Prop where
  | root : IsFrameList global s (.cons global)
  | frame {a : Nat} {first rest : Value} (inner : a ≠ global)
      (cell : s.cells[a]? = some ⟨first, rest⟩) (bindings : AwayFrom global s first)
      (others : IsFrameList global s rest) : IsFrameList global s (.cons a)

/-- The cells of the store are those of data and those of frame lists, and closures are made of
data. -/
structure Layered (global : Nat) (s : Store) : Prop where
  root : ∃ alist, s.cells[global]? = some ⟨alist, .nil⟩ ∧ AwayFrom global s alist
  cells : ∀ a < s.cells.size, AwayFrom global s (.cons a) ∨ IsFrameList global s (.cons a)
  closures : ∀ (k : Nat) (c : Closure), s.closures[k]? = some c →
    AwayFrom global s c.params ∧ AwayFrom global s c.body

/-- All cells but that of the global frame stay what they are. -/
def KeepsInner (global : Nat) (s t : Store) : Prop :=
  ∀ (a : Nat) (c : Cell), a ≠ global → s.cells[a]? = some c → t.cells[a]? = some c

section growth

variable {global : Nat} {s t u : Store} {v : Value}

theorem KeepsInner.of_extends (h : Extends s t) : KeepsInner global s t :=
  fun a c _ cell => h.cells a c cell

theorem KeepsInner.trans (h : KeepsInner global s t) (h' : KeepsInner global t u) :
    KeepsInner global s u :=
  fun a c inner cell => h' a c inner (h a c inner cell)

theorem KeepsInner.bind {frame : Cell} (cell : s.cells[global]? = some frame)
    (key value : Value) : KeepsInner global s (s.bind (.cons global) frame.car key value) :=
  fun a _ inner hc => ((Store.bind_spec cell key value).1 a
    (Array.getElem?_eq_some_iff.1 hc).1 inner).trans hc

theorem IsData.keep (h : AwayFrom global s v) (keeps : KeepsInner global s t) :
    AwayFrom global t v :=
  h.imp fun a c own cell => ⟨own, keeps a c own cell⟩

theorem IsFrameList.keep (h : IsFrameList global s v) (keeps : KeepsInner global s t) :
    IsFrameList global t v := by
  induction h with
  | root => exact .root
  | frame inner cell bindings _ ih =>
    exact .frame inner (keeps _ _ inner cell) (bindings.keep keeps) ih

namespace Layered

theorem global_lt (h : Layered global s) : global < s.cells.size := by
  obtain ⟨alist, cell, -⟩ := h.root
  exact (Array.getElem?_eq_some_iff.1 cell).1

theorem inner (h : Layered global s) : ∀ a, s.cells.size ≤ a → a ≠ global := by
  rintro a ha rfl
  exact absurd h.global_lt (Nat.not_lt.2 ha)

/-- A store may grow by cells of data and of frame lists and by closures made of data. -/
theorem grow (h : Layered global s) (keeps : KeepsInner global s t)
    (root : ∃ alist, t.cells[global]? = some ⟨alist, .nil⟩ ∧ AwayFrom global t alist)
    (new : ∀ a, s.IsNew t a → AwayFrom global t (.cons a) ∨ IsFrameList global t (.cons a))
    (closures : ∀ (k : Nat) (c : Closure), t.closures[k]? = some c →
      s.closures[k]? = some c ∨ (AwayFrom global t c.params ∧ AwayFrom global t c.body)) :
    Layered global t := by
  refine ⟨root, fun a ha => ?_, fun k c hc => ?_⟩
  · by_cases old : a < s.cells.size
    · exact (h.cells a old).imp (·.keep keeps) (·.keep keeps)
    · exact new a ⟨Nat.le_of_not_lt old, ha⟩
  · rcases closures k c hc with old | new
    · obtain ⟨params, body⟩ := h.closures k c old
      exact ⟨params.keep keeps, body.keep keeps⟩
    · exact new

theorem root_extend (h : Layered global s) (grow : Extends s t) :
    ∃ alist, t.cells[global]? = some ⟨alist, .nil⟩ ∧ AwayFrom global t alist := by
  obtain ⟨alist, cell, bindings⟩ := h.root
  exact ⟨alist, grow.cells _ _ cell, bindings.extend grow⟩

theorem fills (h : Layered global s) (fill : Fills (· ≠ global) s t) : Layered global t :=
  h.grow (.of_extends fill.toExtends) (h.root_extend fill.toExtends)
    (fun a ha => .inl (fill.filled a ha)) fun _ _ closure => .inl (fill.sameClosures ▸ closure)

theorem closure (h : Layered global s) {params body : Value} (hparams : AwayFrom global s params)
    (hbody : AwayFrom global s body) (env : Env) :
    Layered global (s.closure params body env).2 := by
  have grow := s.extends_closure params body env
  refine h.grow (.of_extends grow) (h.root_extend grow) (fun a ha => ?_) fun k c closure => ?_
  · exact absurd ha.2 (Nat.not_lt.2 ha.1)
  · simp only [Store.closure, Array.getElem?_push] at closure
    split at closure
    · cases closure
      exact .inr ⟨hparams.extend grow, hbody.extend grow⟩
    · exact .inl closure

/-- A definition puts a pair of data in front of what the global frame binds. -/
theorem bind (h : Layered global s) {frame : Cell} (cell : s.cells[global]? = some frame)
    {key value : Value} (hkey : AwayFrom global s key) (hvalue : AwayFrom global s value) :
    Layered global (s.bind (.cons global) frame.car key value) := by
  obtain ⟨alist, root, bindings⟩ := h.root
  cases cell.symm.trans root
  have keeps : KeepsInner global s (s.bind (.cons global) alist key value) := .bind cell key value
  obtain ⟨-, front, next, pair, size⟩ := Store.bind_spec cell key value
  have hlt := h.global_lt
  have pairData : AwayFrom global (s.bind (.cons global) alist key value) (.cons s.cells.size) :=
    .cell pair (by omega) (hkey.keep keeps) (hvalue.keep keeps)
  have nextData : AwayFrom global (s.bind (.cons global) alist key value)
      (.cons (s.cells.size + 1)) := .cell next (by omega) pairData (bindings.keep keeps)
  refine h.grow keeps ⟨_, front, nextData⟩ (fun a ha => .inl ?_) fun k c closure => .inl ?_
  · have low := ha.1
    have high := ha.2
    obtain rfl | rfl : a = s.cells.size ∨ a = s.cells.size + 1 := by omega
    · exact pairData
    · exact nextData
  · rwa [Store.closures_bind] at closure

theorem extend (h : Layered global s) {e : Env} (he : IsFrameList global s e.frames)
    {params args : Value} (hparams : AwayFrom global s params) (hargs : AwayFrom global s args) :
    Layered global (s.extend e params args).2 := by
  obtain ⟨fill, list⟩ := fills_zip hparams hargs h.inner
  have layered := h.fills fill
  have grow := ((s.zip params args).2.allocates_cons (s.zip params args).1 e.frames).trans
    (Store.allocates_newInner _ (.cons (s.zip params args).2.cells.size) e)
  have frame : IsFrameList global (s.extend e params args).2
      (.cons (s.zip params args).2.cells.size) :=
    .frame (layered.inner _ (Nat.le_refl _)) (Store.getElem?_cons_self _ _ _)
      (list.extend grow.toExtends)
      (he.keep ((KeepsInner.of_extends fill.toExtends).trans (.of_extends grow.toExtends)))
  refine layered.grow (.of_extends grow.toExtends) (layered.root_extend grow.toExtends)
    (fun a ha => .inr ?_) fun k c closure => .inl closure
  have size := (s.zip params args).2.size_cons (s.zip params args).1 e.frames
  have low := ha.1
  have high : a < ((s.zip params args).2.cons (s.zip params args).1 e.frames).2.cells.size := ha.2
  obtain rfl : a = (s.zip params args).2.cells.size := by omega
  exact frame

end Layered

end growth

section frames

variable {global : Nat} {s : Store} {v : Value} {cells : List Nat} {xs : List Value}

/-- A frame list is no data, for it leads to the cell of the global frame. -/
theorem IsFrameList.not_data (h : IsFrameList global s v) : ¬AwayFrom global s v := by
  induction h with
  | root =>
    intro data
    cases data with
    | atom h => exact h global rfl
    | cell _ own _ _ => exact own rfl
  | frame _ cell _ _ ih => exact fun data => ih (data.parts cell).2

/-- A frame list is a chain of frame lists, which bind data. -/
theorem IsFrameList.chain (h : IsFrameList global s v) (layered : Layered global s) :
    ∃ cells xs, Chain s .nil v (cells ++ [global]) xs ∧
      (∀ a ∈ cells ++ [global], IsFrameList global s (.cons a)) ∧
      ∀ x ∈ xs, AwayFrom global s x := by
  induction h with
  | root =>
    obtain ⟨alist, cell, bindings⟩ := layered.root
    exact ⟨[], [alist], .cons cell .nil, List.forall_mem_singleton.2 .root,
      List.forall_mem_singleton.2 bindings⟩
  | frame inner cell bindings others ih =>
    obtain ⟨cells, xs, chain, lists, data⟩ := ih
    exact ⟨_ :: cells, _, .cons cell chain,
      List.forall_mem_cons.2 ⟨.frame inner cell bindings others, lists⟩,
      List.forall_mem_cons.2 ⟨bindings, data⟩⟩

/-- Like data, a frame list is a finite tree. -/
theorem IsFrameList.isData (h : IsFrameList global s v) (layered : Layered global s) :
    IsData (fun _ => True) s v := by
  induction h with
  | root =>
    obtain ⟨alist, cell, bindings⟩ := layered.root
    exact .cell cell trivial (bindings.mono fun _ _ => trivial) (.atom nofun)
  | frame _ cell bindings _ ih =>
    exact .cell cell trivial (bindings.mono fun _ _ => trivial) ih

/-- What leads to the cell of the global frame along its cdrs is a frame list. -/
theorem Layered.isFrameList (h : Layered global s)
    (chain : Chain s .nil v (cells ++ [global]) xs) : IsFrameList global s v := by
  induction cells generalizing v xs with
  | nil =>
    cases chain with
    | cons _ _ => exact .root
  | cons a cells ih =>
    cases chain with
    | cons cell tail =>
      have others := ih tail
      have data : ¬AwayFrom global s (.cons a) := fun data => others.not_data (data.parts cell).2
      exact (h.cells a (Array.getElem?_eq_some_iff.1 cell).1).resolve_left data

theorem Layered.belongs {root env : Env} (h : Layered global s) (groot : root.frames = .cons global)
    (belongs : env.Belongs root s) : IsFrameList global s env.frames := by
  obtain ⟨g, cells, frames, same, chain, -⟩ := belongs.frames
  cases same.symm.trans groot
  exact h.isFrameList chain

theorem IsFrameList.pairs (h : IsFrameList global s v) (layered : Layered global s) :
    ∀ frame ∈ s.elements v, ∀ pair ∈ s.elements frame, AwayFrom global s pair := by
  obtain ⟨cells, xs, chain, -, data⟩ := h.chain layered
  rw [chain.elements_eq rfl]
  exact fun frame hframe => (data frame hframe).elements

theorem IsFrameList.cdr_of_findPair? (h : IsFrameList global s v) (layered : Layered global s)
    {key pair : Value} (found : s.findPair? v key = some pair) :
    AwayFrom global s (s.cdr pair) := by
  obtain ⟨frame, hframe, found⟩ := List.exists_of_findSome?_eq_some found
  exact (h.pairs layered frame hframe pair (List.mem_of_find?_eq_some found)).cdr

end frames

end PocketLisp
