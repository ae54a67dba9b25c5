import PocketLisp.Proofs.SeparatedMoments
import Mathlib.Logic.Relation

/-!
# No cell is below itself

The cells of a session form no cycle along their cars and cdrs: those of data are finite trees, and
those of frame lists lead on to data and to the cell of the global frame. The other way round, no
data leads to a cell of a frame list. So all walks along cells come to an end: writing a value or
the frames of an environment, comparing values, and going along a list, also while its forms are
evaluated.
-/
namespace PocketLisp

def Store.Links (s : Store) (a b : Nat) : Prop :=
  ∃ c : Cell, s.cells[a]? = some c ∧ (c.car = .cons b ∨ c.cdr = .cons b)

/-- Cars and cdrs lead from a value to a cell. -/
def Store.LeadsTo (s : Store) (v : Value) (b : Nat) : Prop :=
  ∃ a, v = .cons a ∧ Relation.ReflTransGen s.Links a b

mutual

/-- The walk that writes a value. No bound is put on it. -/
inductive Writes (s : Store) : Value → List Char → Prop where
  | atom {v : Value} (finished : s.cell? v = none) : Writes s v (atomText v)
  | cons {v : Value} {c : Cell} {first rest : List Char} (cell : s.cell? v = some c)
      (car : Writes s c.car first) (cdr : WritesTail s c.cdr rest) :
      Writes s v ('(' :: (first ++ rest))

inductive WritesTail (s : Store) : Value → List Char → Prop where
  | close : WritesTail s .nil [')']
  | dot {v : Value} (finished : s.cell? v = none) (improper : v ≠ .nil) :
      WritesTail s v (' ' :: '.' :: ' ' :: (atomText v ++ [')']))
  | more {v : Value} {c : Cell} {first rest : List Char} (cell : s.cell? v = some c)
      (car : Writes s c.car first) (cdr : WritesTail s c.cdr rest) :
      WritesTail s v (' ' :: (first ++ rest))

end

/-- The walk that compares two values, up to the first difference. No bound is put on it. -/
inductive Compares (s : Store) : Value → Value → Bool → Prop where
  | atoms {v w : Value} (finished : s.cell? v = none ∨ s.cell? w = none) :
      Compares s v w (equalAtoms v w)
  | differ {v w : Value} {c d : Cell} (cell : s.cell? v = some c) (cell' : s.cell? w = some d)
      (car : Compares s c.car d.car false) : Compares s v w false
  | parts {v w : Value} {c d : Cell} {same : Bool} (cell : s.cell? v = some c)
      (cell' : s.cell? w = some d) (car : Compares s c.car d.car true)
      (cdr : Compares s c.cdr d.cdr same) : Compares s v w same

/-- The values of the given forms, in order. The first error is the outcome; otherwise it is a new
list of the values, which `done` holds so far, latest first. -/
def evalEach (eval : Value → Run Value) (done : List Value) : List Value → Run Value
  | [] => Run.make (fun s => s.ofList done.reverse)
  | form :: forms => do
    let v ← eval form
    if v.isError then pure v else evalEach eval (v :: done) forms

def Moment.Knew (root : Env) (m : Moment) (env : Env) : Prop :=
  ∃ m₀ ds, Visited root m₀ ∧ m₀.Knows root env ∧ Course (Turn root) m₀ ds m

/-- The values that come up in a session: those that an evaluation goes on with or went on with
before, forms and results among them, what its environments bind, and the parts of its closures. -/
inductive Held (root : Env) (m : Moment) : Value → Prop where
  | seen {m₀ : Moment} {ds : List Defined} {v : Value} (visited : Visited root m₀)
      (seen : v ∈ m₀.stage.values) (later : Course (Turn root) m₀ ds m) : Held root m v
  | key {env : Env} {frame pair : Value} (knew : m.Knew root env)
      (hframe : frame ∈ m.store.elements env.frames) (hpair : pair ∈ m.store.elements frame) :
      Held root m (m.store.car pair)
  | bound {env : Env} {frame pair : Value} (knew : m.Knew root env)
      (hframe : frame ∈ m.store.elements env.frames) (hpair : pair ∈ m.store.elements frame) :
      Held root m (m.store.cdr pair)
  | params {k : Nat} {c : Closure} (closure : m.store.closures[k]? = some c) : Held root m c.params
  | body {k : Nat} {c : Closure} (closure : m.store.closures[k]? = some c) : Held root m c.body

section data

variable {kind kind' : Nat → Prop} {global a b : Nat} {s t : Store} {v w : Value}

theorem equalAtoms_cons (h : ∀ a, v ≠ .cons a) (b : Nat) :
    equalAtoms v (.cons b) = false ∧ equalAtoms (.cons b) v = false := by
  cases v with
  | cons a => exact absurd rfl (h a)
  | _ => simp [equalAtoms]

theorem Store.tree_of_atom (h : s.cell? v = none) : s.tree v = .atom v :=
  have leaf : s.IsLeaf v v := ⟨rfl, h⟩
  Unfolds.tree_atom (fun _ _ leaf => leaf.2) leaf

theorem Store.elements_of_atom (s : Store) (h : s.cell? v = none) : s.elements v = [] :=
  Chain.nil.elements_eq h

namespace IsData

/-- From a cell of data only finitely many steps lead on. -/
theorem acc (h : IsData kind s v) (ha : v = .cons a) : Acc (flip s.Links) a := by
  induction h generalizing a with
  | atom h => exact absurd ha (h a)
  | cell cell _ _ _ ihCar ihCdr =>
    cases ha
    refine .intro _ fun b link => ?_
    obtain ⟨c, cell', link⟩ := link
    cases cell.symm.trans cell'
    exact link.elim ihCar ihCdr

theorem link (h : IsData kind s (.cons a)) (link : s.Links a b) : IsData kind s (.cons b) := by
  obtain ⟨c, cell, car | cdr⟩ := link
  · exact car ▸ (h.parts cell).1
  · exact cdr ▸ (h.parts cell).2

theorem leadsTo (h : IsData kind s v) (lead : s.LeadsTo v b) : IsData kind s (.cons b) := by
  obtain ⟨a, rfl, path⟩ := lead
  induction path with
  | refl => exact h
  | tail _ last ih => exact ih.link last

theorem tree_of_cell (h : IsData kind s (.cons a)) {x y : Value}
    (cell : s.cells[a]? = some ⟨x, y⟩) : s.tree (.cons a) = .cons (s.tree x) (s.tree y) := by
  obtain ⟨t, unfolds⟩ := h.exists_tree
  exact unfolds.tree_cons (fun _ _ leaf => leaf.2) cell

/-- Writing data ends, with the text of its tree. -/
theorem writes (h : IsData kind s v) : Writes s v ((s.tree v).render valueSpelling []) ∧
    WritesTail s v ((s.tree v).renderTail valueSpelling []) := by
  induction h with
  | @atom v h =>
    have finished := cell?_eq_none (s := s) h
    simp only [Store.tree_of_atom finished, Sexp.render, Sexp.renderTail, List.append_nil]
    refine ⟨.atom finished, ?_⟩
    by_cases proper : v = .nil
    · subst proper
      exact .close
    · rw [if_neg (by simpa [valueSpelling] using proper)]
      exact .dot finished proper
  | @cell a x y cell own car cdr ihCar ihCdr =>
    have named : s.cell? (.cons a) = some ⟨x, y⟩ := cell
    have split := ((s.tree x).render_append valueSpelling []
      ((s.tree y).renderTail valueSpelling [])).1
    simp only [(IsData.cell cell own car cdr).tree_of_cell cell, Sexp.render, Sexp.renderTail]
    rw [List.nil_append] at split
    rw [split]
    exact ⟨.cons named ihCar.1 ihCdr.2, .more named ihCar.1 ihCdr.2⟩

theorem compares (h : IsData kind s v) (h' : IsData kind' s w) :
    Compares s v w (s.equal v w) := by
  rw [Store.equal]
  induction h generalizing w with
  | @atom v h =>
    have finished := cell?_eq_none (s := s) h
    have atoms : Compares s v w (equalAtoms v w) := .atoms (.inl finished)
    rw [Store.tree_of_atom finished]
    cases h' with
    | atom h' =>
      rw [Store.tree_of_atom (cell?_eq_none h')]
      exact atoms
    | @cell b x y cell own car cdr =>
      rw [(IsData.cell cell own car cdr).tree_of_cell cell]
      rw [(equalAtoms_cons h b).1] at atoms
      exact atoms
  | @cell a x y cell own car cdr ihCar ihCdr =>
    rw [(IsData.cell cell own car cdr).tree_of_cell cell]
    cases h' with
    | @atom w h' =>
      have finished := cell?_eq_none (s := s) h'
      have atoms : Compares s (.cons a) w (equalAtoms (.cons a) w) := .atoms (.inr finished)
      rw [Store.tree_of_atom finished]
      rw [(equalAtoms_cons h' a).2] at atoms
      exact atoms
    | @cell b x' y' cell' own' car' cdr' =>
      rw [(IsData.cell cell' own' car' cdr').tree_of_cell cell', Sexp.agree]
      have first := ihCar car'
      have second := ihCdr cdr'
      cases same : (s.tree x).agree equalAtoms (s.tree x') with
      | false =>
        rw [same] at first
        exact .differ cell cell' first
      | true =>
        rw [same] at first
        exact .parts cell cell' first second

/-- The cars of data come from a chain of cells with an end. -/
theorem chain_elements (h : IsData kind s v) :
    ∃ last cells, Chain s last v cells (s.elements v) ∧ s.cell? last = none := by
  obtain ⟨last, cells, xs, chain, ends, -, -⟩ := h.chain
  have finished := cell?_eq_none (s := s) ends
  rw [chain.elements_eq finished]
  exact ⟨last, cells, chain, finished⟩

theorem elements_of_cell (h : IsData kind s (.cons a)) {x y : Value}
    (cell : s.cells[a]? = some ⟨x, y⟩) : s.elements (.cons a) = x :: s.elements y := by
  obtain ⟨last, cells, chain, finished⟩ := (h.parts cell).2.chain_elements
  exact (Chain.cons cell chain).elements_eq finished

/-- The list of data stays the same while only the cell of the global frame is changed. -/
theorem elements_keep (h : AwayFrom global s v) (keeps : KeepsInner global s t) :
    t.elements v = s.elements v := by
  obtain ⟨last, cells, xs, chain, ends, own, -⟩ := h.chain
  have chain' : Chain t last v cells xs := chain.congr fun a ha => by
    have old := Array.getElem?_eq_getElem (chain.lt_size a ha)
    rw [old, keeps a _ (own a ha) old]
  rw [chain.elements_eq (cell?_eq_none ends), chain'.elements_eq (cell?_eq_none ends)]

end IsData

/-- Each cell is one of a finite tree. -/
theorem Layered.isData (h : Layered global s) (ha : a < s.cells.size) :
    IsData (fun _ => True) s (.cons a) :=
  (h.cells a ha).elim (fun data => data.mono fun _ _ => trivial) fun list => list.isData h

theorem Layered.acyclic (h : Layered global s) (a : Nat) : ¬Relation.TransGen s.Links a a := by
  have wellFounded : WellFounded (flip s.Links) := by
    refine ⟨fun a => ?_⟩
    by_cases ha : a < s.cells.size
    · exact (h.isData ha).acc rfl
    · refine .intro a fun b link => ?_
      obtain ⟨c, cell, -⟩ := link
      exact absurd (Array.getElem?_eq_some_iff.1 cell).1 ha
  intro cycle
  have back := Relation.transGen_swap.2 cycle
  exact wellFounded.transGen.asymmetric a a back back

end data

section forms

variable {root env : Env} {global width depth fuel : Nat} {stage : Stage} {s : Store}
  {forms : Value}

/-- The evaluation of a form leaves the rest of its list as it is. -/
theorem Separated.next_form (h : Separated root global ⟨stage, s⟩) (known : env ∈ stage.envs)
    {a : Nat} {form rest v : Value} {t : Store} (cell : s.cells[a]? = some ⟨form, rest⟩)
    (own : a ≠ global) (first : AwayFrom global s form) (others : AwayFrom global s rest)
    (value : (Engine.core width depth).eval form env s = .ok v t) :
    Separated root global ⟨stage, t⟩ ∧ t.cdr (.cons a) = rest ∧ AwayFrom global t rest ∧
      t.elements rest = s.elements rest := by
  obtain ⟨keeps, later, -⟩ := h.eval (.inr (.inr known)) first value
  refine ⟨later, ?_, others.keep keeps, others.elements_keep keeps⟩
  simp only [Store.cdr, Store.cell?, keeps a _ own cell]

/-- The values of a list of forms are those of the forms that are in it at first, whatever their
evaluation does. -/
theorem Separated.evalList_eq (h : Separated root global ⟨stage, s⟩) (known : env ∈ stage.envs)
    (hforms : AwayFrom global s forms) (enough : (s.elements forms).length < fuel)
    (done : List Value) :
    evalList (fun form => (Engine.core width depth).eval form env) fuel done forms s =
      evalEach (fun form => (Engine.core width depth).eval form env) done (s.elements forms) s := by
  -- The store changes with each form; the induction goes on in the store after it.
  induction fuel generalizing s forms done with
  | zero => exact absurd enough (Nat.not_lt_zero _)
  | succ fuel ih =>
    cases hforms with
    | atom ends =>
      have finished := IsData.cell?_eq_none (s := s) ends
      simp only [evalList, Run.look_bind_apply, finished, s.elements_of_atom finished, evalEach]
    | @cell a form rest cell own first others =>
      have list := (IsData.cell cell own first others).elements_of_cell cell
      rw [list, List.length_cons] at enough
      simp only [evalList, Run.look_bind_apply, Store.cell?, cell, list, evalEach]
      cases value : (Engine.core width depth).eval form env s with
      | error stop t => rw [Run.bind_apply_of_error value, Run.bind_apply_of_error value]
      | ok v t =>
        rw [Run.bind_apply_of_ok value, Run.bind_apply_of_ok value]
        split
        · rfl
        obtain ⟨later, next, others, same⟩ := h.next_form known cell own first others value
        rw [Run.look_bind_apply, next, ih later others (by rw [same]; omega), same]

/-- The value of a body is that of its forms that are in it at first, one after the other. -/
theorem Separated.evalBody_eq (h : Separated root global ⟨stage, s⟩) (known : env ∈ stage.envs)
    (hforms : AwayFrom global s forms) (enough : (s.elements forms).length < fuel)
    (last : Value) :
    evalBody (fun form => (Engine.core width depth).eval form env) fuel last forms s =
      (s.elements forms).foldlM (fun _ form => (Engine.core width depth).eval form env) last s := by
  induction fuel generalizing s forms last with
  | zero => exact absurd enough (Nat.not_lt_zero _)
  | succ fuel ih =>
    cases hforms with
    | atom ends =>
      have finished := IsData.cell?_eq_none (s := s) ends
      simp only [evalBody, Run.look_bind_apply, finished, s.elements_of_atom finished,
        List.foldlM_nil]
    | @cell a form rest cell own first others =>
      have list := (IsData.cell cell own first others).elements_of_cell cell
      rw [list, List.length_cons] at enough
      simp only [evalBody, Run.look_bind_apply, Store.cell?, cell, list, List.foldlM_cons]
      cases value : (Engine.core width depth).eval form env s with
      | error stop t => rw [Run.bind_apply_of_error value, Run.bind_apply_of_error value]
      | ok v t =>
        rw [Run.bind_apply_of_ok value, Run.bind_apply_of_ok value]
        obtain ⟨later, next, others, same⟩ := h.next_form known cell own first others value
        rw [Run.look_bind_apply, next, ih later others (by rw [same]; omega), same]

end forms

section sessions

variable {root env : Env} {global : Nat} {m : Moment} {v : Value}

theorem Visited.eval (h : Visited root m) {form : Value} {waiting : List Waiting} {s : Store}
    {width depth : Nat} (asked : m.stage = .ask (.eval form env) waiting)
    (evaluation : (Engine.core width depth).eval form env m.store = .ok v s) :
    Visited root ⟨.give v waiting, s⟩ := by
  obtain ⟨s₀, ds, fresh, course⟩ := h
  obtain ⟨ds', steps⟩ := (answers_of_run evaluation).course
  have steps := steps waiting
  rw [← asked] at steps
  exact ⟨s₀, _, fresh, course.trans (steps.mono fun step => .move (.step step))⟩

theorem Moment.Knew.isFrameList (knew : m.Knew root env) (h : Separated root global m) :
    IsFrameList global m.store env.frames := by
  obtain ⟨m₀, ds, visited, known, course⟩ := knew
  obtain ⟨g, start⟩ := visited.separated
  cases start.frame.symm.trans h.frame
  have list := start.layered.belongs start.frame (start.environments env known)
  exact list.keep (start.course course).1

theorem Held.away (held : Held root m v) (h : Separated root global m) :
    AwayFrom global m.store v := by
  cases held with
  | seen visited seen later =>
    obtain ⟨g, start⟩ := visited.separated
    cases start.frame.symm.trans h.frame
    exact (start.values v seen).keep (start.course later).1
  | key knew hframe hpair => exact ((knew.isFrameList h).pairs h.layered _ hframe _ hpair).car
  | bound knew hframe hpair => exact ((knew.isFrameList h).pairs h.layered _ hframe _ hpair).cdr
  | params closure => exact (h.layered.closures _ _ closure).1
  | body closure => exact (h.layered.closures _ _ closure).2

/-- In a session no cell is below itself, at any moment and whatever lines it has been given. No
value that comes up, the values of evaluations among them, and none that is bound or part of a
closure leads to a cell of the frames of an environment, the cell of the global frame included. So
writing values and frames, comparing values, going along a list and looking a key up come to an end,
and the forms of a list are evaluated one after the other as they are in it at first. The value of
each evaluation is one of those values, and each line, also one that is given up, leads to a moment
of which all this holds again. -/
theorem no_cell_below_itself (root : Env) (m : Moment) (visited : Visited root m) :
    (∀ a, ¬Relation.TransGen m.store.Links a a) ∧
    (∀ env, m.Knew root env →
      (∃ g cells frames, root.frames = .cons g ∧
        Chain m.store .nil env.frames (cells ++ [g]) frames ∧
        ∀ v, Held root m v → ∀ b ∈ cells ++ [g], ¬m.store.LeadsTo v b) ∧
      ∃ text, Writes m.store env.frames text ∧
        m.store.describeEnv env = "environment: " ++ String.ofList text) ∧
    (∀ v, Held root m v →
      (∃ text, Writes m.store v text ∧ m.store.print v = String.ofList text) ∧
      (∃ last cells, Chain m.store last v cells (m.store.elements v) ∧
        m.store.cell? last = none) ∧
      ∀ w, Held root m w → Compares m.store v w (m.store.equal v w)) ∧
    (∀ env, m.Knows root env →
      (∀ key, ∃ found, Finds m.store key .nil env.frames found ∧
        env.find? key m.store = .ok found m.store) ∧
      ∀ forms, Held root m forms → ∀ width depth, (m.store.elements forms).length < width →
        (Engine.core width depth).evalForms forms env m.store =
          evalEach (fun form => (Engine.core width depth).eval form env) []
            (m.store.elements forms) m.store ∧
        (Engine.core width depth).evalSequence forms env m.store =
          (m.store.elements forms).foldlM
            (fun _ form => (Engine.core width depth).eval form env) .nil m.store) ∧
    (∀ form env waiting width depth v s, m.stage = .ask (.eval form env) waiting →
      (Engine.core width depth).eval form env m.store = .ok v s →
        Visited root ⟨.give v waiting, s⟩ ∧ Held root ⟨.give v waiting, s⟩ v) ∧
    ∀ width depth line s, m.stage = .idle →
      ((Engine.core width depth).rep root line).Leaves m.store s → Visited root ⟨.idle, s⟩ := by
  obtain ⟨global, h⟩ := visited.separated
  refine ⟨h.layered.acyclic, fun env knew => ?_, fun v held => ?_, fun env known => ?_,
    fun form env waiting width depth v s asked evaluation => ?_,
    fun width depth line s idle leaves => ?_⟩
  · have list := knew.isFrameList h
    obtain ⟨cells, frames, chain, lists, -⟩ := list.chain h.layered
    refine ⟨⟨global, cells, frames, h.frame, chain, fun v held b hb lead => ?_⟩,
      _, (list.isData h.layered).writes.1, rfl⟩
    exact (lists b hb).not_data ((held.away h).leadsTo lead)
  · have data := held.away h
    exact ⟨⟨_, data.writes.1, rfl⟩, data.chain_elements,
      fun w held' => data.compares (held'.away h)⟩
  · refine ⟨fun key => ⟨_, (h.environments env known).finds key, env.find?_eq key m.store⟩,
      fun forms held width depth enough => ?_⟩
    -- Among the calls of a moment that asks for a value in it, the environment is at hand.
    have call := h.ask known (.atom nofun : AwayFrom global m.store .nil)
    exact ⟨call.evalList_eq List.mem_cons_self (held.away h) enough [],
      call.evalBody_eq List.mem_cons_self (held.away h) enough .nil⟩
  · have later := visited.eval asked evaluation
    exact ⟨later, .seen later List.mem_cons_self .refl⟩
  · obtain ⟨stage, t⟩ := m
    cases idle
    exact visited.line leaves

/-- A function that has captured the global environment: its body does not lead to the cell of the
global frame, in which the function is bound, and the description of that frame ends. -/
theorem no_cell_below_itself_definition : ∃ root m c text, Visited root m ∧
    m.store.closures[0]? = some c ∧ c.env.frames = root.frames ∧ root.frames = .cons 0 ∧
    ¬m.store.LeadsTo c.body 0 ∧ ¬Relation.TransGen m.store.Links 0 0 ∧
    Writes m.store root.frames text ∧ "environment: " ++ String.ofList text =
      "environment: (((f . <expr>) (t . t) (cons . <subr>) (cdr . <subr>) (car . <subr>)))" := by
  have value : (match (do
        let root ← Env.newSession
        let _ ← (Engine.core 5 5).rep root "(defun f (x) x)"
        return root : Run Env) Store.empty with
      | .ok root s => some (s.closures[0]?.map fun (c : Closure) => c.env.frames, root.frames,
          s.describeEnv root)
      | .error _ _ => none) = some (some (.cons 0), .cons 0,
        "environment: (((f . <expr>) (t . t) (cons . <subr>) (cdr . <subr>) (car . <subr>)))") := by
    decide +kernel
  split at value
  · next root s run =>
    simp only [Option.some.injEq, Prod.mk.injEq, Option.map_eq_some_iff] at value
    obtain ⟨⟨c, closure, captured⟩, frame, description⟩ := value
    have visited := visited_of_rep run
    have knew : Moment.Knew root ⟨.idle, s⟩ root := ⟨_, _, visited, .inl rfl, .refl⟩
    obtain ⟨acyclic, frames, -⟩ := no_cell_below_itself root _ visited
    obtain ⟨⟨g, cells, _, same, -, apart⟩, text, writes, described⟩ := frames root knew
    cases same.symm.trans frame
    exact ⟨root, _, c, text, visited, closure, captured.trans frame.symm, frame,
      apart _ (.body closure) 0 (List.mem_append_right cells List.mem_cons_self), acyclic 0, writes,
      described.symm.trans description⟩
  · cases value

end sessions

end PocketLisp
