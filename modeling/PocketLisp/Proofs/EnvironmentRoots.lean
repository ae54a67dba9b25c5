import PocketLisp.Proofs.Confinement
import PocketLisp.Proofs.StoppedRuns

/-!
# Every environment is rooted in the global one

The environments of a session share its symbol table and its global environment. The frames of each
are a list that ends in the one cell of the global frame, and every frame is a list of pairs. All
operations keep this, for the cells that they change keep their cdrs, and the car of a frame only
gets pairs in front. So there always is a frame to define in, and looking a key up comes to an end.
-/
namespace PocketLisp

def Store.IsPairList (s : Store) (v : Value) : Prop :=
  ∃ cells pairs, Chain s .nil v cells pairs ∧ ∀ x ∈ pairs, ∃ c, s.cell? x = some c

/-- The environment has the table and the global environment of a session, and its frames end in the
one cell of the global frame. -/
structure Env.Belongs (env root : Env) (s : Store) : Prop where
  table : env.table = root.table
  global : env.global = root
  frames : ∃ g cells frames, root.frames = .cons g ∧
    Chain s .nil env.frames (cells ++ [g]) frames ∧ ∀ frame ∈ frames, s.IsPairList frame

/-- All environments that there are belong to the session, and the global one has one frame. -/
structure Consistent (root : Env) (m : Moment) : Prop where
  table : root.table < m.store.tables.size
  single : ∃ alist, m.store.cell? root.frames = some ⟨alist, .nil⟩
  environments : ∀ env, m.Knows root env → env.Belongs root m.store

theorem Env.Belongs.globalFrames_eq {env root : Env} {s : Store} (h : env.Belongs root s) :
    env.globalFrames = root.frames :=
  congrArg Env.frames h.global

/-- The walk that looks a key up: along the pairs of a frame, then along the frames after it, up to
the first pair that binds the key. No bound is put on it. -/
inductive Finds (s : Store) (key : Value) : Value → Value → Option Value → Prop where
  | found {alist frames : Value} {c : Cell} (cell : s.cell? alist = some c)
      (binds : s.binds key c.car = true) : Finds s key alist frames (some c.car)
  | next {alist frames : Value} {c : Cell} {found : Option Value} (cell : s.cell? alist = some c)
      (other : s.binds key c.car = false) (later : Finds s key c.cdr frames found) :
      Finds s key alist frames found
  | frame {alist frames : Value} {c : Cell} {found : Option Value}
      (finished : s.cell? alist = none) (cell : s.cell? frames = some c)
      (later : Finds s key c.car c.cdr found) : Finds s key alist frames found
  | missing {alist frames : Value} (finished : s.cell? alist = none)
      (noFrame : s.cell? frames = none) : Finds s key alist frames none

section lookup

variable {s : Store} {key v frames : Value} {cells : List Nat} {xs : List Value}

/-- Along a frame the walk comes to the first pair of the key, or goes on with the next frame. -/
theorem Chain.finds {found : Option Value} (h : Chain s .nil v cells xs)
    (later : Finds s key .nil frames found) :
    Finds s key v frames ((xs.find? (s.binds key)).or found) := by
  induction h with
  | nil => exact later
  | @cons a x rest cells xs cell _ ih =>
    have first : s.cell? (.cons a) = some ⟨x, rest⟩ := cell
    by_cases binds : s.binds key x = true
    · rw [List.find?_cons_of_pos binds]
      exact .found first binds
    · rw [List.find?_cons_of_neg binds]
      exact .next first (Bool.not_eq_true _ ▸ binds) ih

/-- Along frames that are lists the walk comes to an end. -/
theorem Chain.finds_frames (h : Chain s .nil v cells xs) (lists : ∀ x ∈ xs, s.IsPairList x) :
    Finds s key .nil v (xs.findSome? (fun frame => (s.elements frame).find? (s.binds key))) := by
  induction h with
  | nil => exact .missing rfl rfl
  | @cons a x rest cells xs cell _ ih =>
    obtain ⟨frameCells, pairs, chain, -⟩ := lists x List.mem_cons_self
    have later := ih fun y hy => lists y (List.mem_cons_of_mem x hy)
    rw [List.findSome?_cons, chain.elements_eq rfl]
    have walk := chain.finds later
    cases found : pairs.find? (s.binds key) with
    | none =>
      rw [found] at walk
      exact .frame rfl cell walk
    | some pair =>
      rw [found] at walk
      exact .frame rfl cell walk

/-- The walk along the frames of an environment ends, with the pair that is found. -/
theorem Env.Belongs.finds {root env : Env} (h : env.Belongs root s) (key : Value) :
    Finds s key .nil env.frames (s.findPair? env.frames key) := by
  obtain ⟨g, cells, frames, -, chain, lists⟩ := h.frames
  rw [Store.findPair?, chain.elements_eq rfl]
  exact chain.finds_frames lists

end lookup

/-- The value `new` is the value `old` with pairs in front. -/
inductive Prefixed (s : Store) (old : Value) : Value → Prop where
  | same : Prefixed s old old
  | more {a : Nat} {x new : Value} {c : Cell} (cell : s.cells[a]? = some ⟨x, new⟩)
      (pair : s.cell? x = some c) (earlier : Prefixed s old new) : Prefixed s old (.cons a)

/-- The cells of the first store are in the second one with the same cdrs, and with the same cars or
pairs in front of them. -/
def Keeps (s t : Store) : Prop :=
  ∀ (a : Nat) (c : Cell), s.cells[a]? = some c →
    ∃ new, t.cells[a]? = some ⟨new, c.cdr⟩ ∧ Prefixed t c.car new

section keeps

variable {s t u : Store} {v old new : Value} {c : Cell}

theorem Keeps.exists_cell (h : Keeps s t) (cell : s.cell? v = some c) :
    ∃ c', t.cell? v = some c' := by
  obtain ⟨a, rfl, cell⟩ := Store.cell?_eq_some cell
  obtain ⟨new, cell', -⟩ := h a c cell
  exact ⟨_, cell'⟩

theorem Prefixed.exists_cell (h : Prefixed s old new) (cell : s.cell? old = some c) :
    ∃ c', s.cell? new = some c' := by
  cases h with
  | same => exact ⟨c, cell⟩
  | more cell _ _ => exact ⟨_, cell⟩

theorem Prefixed.keep (h : Prefixed s old new) (keeps : Keeps s t) : Prefixed t old new := by
  induction h with
  | same => exact .same
  | more cell pair _ ih =>
    obtain ⟨x', cell', front⟩ := keeps _ _ cell
    obtain ⟨_, pair⟩ := keeps.exists_cell pair
    obtain ⟨_, pair'⟩ := front.exists_cell pair
    exact .more cell' pair' ih

theorem Prefixed.trans {mid : Value} (h : Prefixed s old mid) (h' : Prefixed s mid new) :
    Prefixed s old new := by
  induction h' with
  | same => exact h
  | more cell pair _ ih => exact .more cell pair ih

theorem Prefixed.isPairList (h : Prefixed s old new) (list : s.IsPairList old) :
    s.IsPairList new := by
  induction h with
  | same => exact list
  | more cell pair _ ih =>
    obtain ⟨cells, pairs, chain, hold⟩ := ih
    exact ⟨_, _, .cons cell chain, List.forall_mem_cons.2 ⟨⟨_, pair⟩, hold⟩⟩

theorem Keeps.of_extends (h : Extends s t) : Keeps s t :=
  fun a c cell => ⟨c.car, h.cells a c cell, .same⟩

theorem Keeps.trans (h : Keeps s t) (h' : Keeps t u) : Keeps s u := by
  intro a c cell
  obtain ⟨mid, cell', front⟩ := h a c cell
  obtain ⟨new, cell'', front'⟩ := h' a _ cell'
  exact ⟨new, cell'', (front.keep h').trans front'⟩

/-- Binding a key in a frame puts a pair in front of what the frame binds. -/
theorem Keeps.bind {frames : Value} (frame : s.cell? frames = some c) (key value : Value) :
    Keeps s (s.bind frames c.car key value) := by
  obtain ⟨g, rfl, cell⟩ := Store.cell?_eq_some frame
  obtain ⟨others, front, next, pair, -⟩ := Store.bind_spec cell key value
  intro a d hd
  by_cases ha : a = g
  · subst ha
    cases cell.symm.trans hd
    exact ⟨_, front, .more next pair .same⟩
  · exact ⟨d.car, (others a (Array.getElem?_eq_some_iff.1 hd).1 ha).trans hd, .same⟩

theorem Chain.keep {last : Value} {cells : List Nat} {xs : List Value}
    (h : Chain s last v cells xs) (keeps : Keeps s t) :
    ∃ xs', Chain t last v cells xs' ∧ List.Forall₂ (Prefixed t) xs xs' := by
  induction h with
  | nil => exact ⟨[], .nil, .nil⟩
  | cons cell _ ih =>
    obtain ⟨xs', chain, fronts⟩ := ih
    obtain ⟨x', cell', front⟩ := keeps _ _ cell
    exact ⟨x' :: xs', .cons cell' chain, .cons front fronts⟩

theorem Store.IsPairList.keep (h : s.IsPairList v) (keeps : Keeps s t) : t.IsPairList v := by
  obtain ⟨cells, pairs, chain, hold⟩ := h
  obtain ⟨pairs', chain', fronts⟩ := chain.keep keeps
  refine ⟨cells, pairs', chain', fun x hx => ?_⟩
  obtain ⟨y, hy, front⟩ := exists_of_mem_forall₂ fronts.flip hx
  obtain ⟨_, pair⟩ := hold y hy
  obtain ⟨_, pair'⟩ := keeps.exists_cell pair
  exact front.exists_cell pair'

theorem Env.Belongs.keep {root env : Env} (h : env.Belongs root s) (keeps : Keeps s t) :
    env.Belongs root t := by
  obtain ⟨g, cells, frames, groot, chain, lists⟩ := h.frames
  obtain ⟨frames', chain', fronts⟩ := chain.keep keeps
  refine ⟨h.table, h.global, g, cells, frames', groot, chain', fun frame hframe => ?_⟩
  obtain ⟨old, hold, front⟩ := exists_of_mem_forall₂ fronts.flip hframe
  exact front.isPairList ((lists old hold).keep keeps)

/-- A call puts the list of pairs of its parameters and arguments in front of the frames. -/
theorem Env.Belongs.extend {root e : Env} (h : e.Belongs root s) (params args : Value) :
    (s.extend e params args).1.Belongs root (s.extend e params args).2 := by
  obtain ⟨growZip, fresh, pairs, pairChain, -, newPairs, -⟩ := s.zip_chain params args
  have grow := (Store.allocates_cons (s.zip params args).2 (s.zip params args).1 e.frames).trans
    (Store.allocates_newInner _ (.cons (s.zip params args).2.cells.size) e)
  have list : (s.zip params args).2.IsPairList (s.zip params args).1 := by
    refine ⟨fresh, _, pairChain, fun x hx => ?_⟩
    obtain ⟨p, hp, rfl⟩ := List.mem_map.1 hx
    exact ⟨_, Array.getElem?_eq_getElem (newPairs p hp).2⟩
  obtain ⟨g, cells, frames, groot, chain, lists⟩ :=
    (h.keep (.of_extends (growZip.trans grow).toExtends)).frames
  refine ⟨h.table, h.global, g, _ :: cells, _, groot,
    .cons (Store.getElem?_cons_self _ _ _) chain, ?_⟩
  exact List.forall_mem_cons.2 ⟨list.keep (.of_extends grow.toExtends), lists⟩

end keeps

theorem Effect.keeps {m : Moment} {ds : List Defined} {s : Store} (h : Effect m ds s) :
    Keeps m.store s := by
  cases h with
  | data adds => exact .of_extends adds.toExtends
  | closure adds _ params body =>
    exact .of_extends (adds.toExtends.trans (Store.extends_closure _ params body _))
  | @define s t env params body _ _ _ adds _ function global =>
    have growClosure := s.extends_closure params body env
    rw [function] at growClosure
    exact (Keeps.of_extends (adds.toExtends.trans growClosure)).trans (.bind global _ _)

namespace Consistent
variable {root : Env} {m m' : Moment} {ds : List Defined} {s : Store}

/-- What is kept of the store keeps the environments that are there; those of further calls and of
new closures have to belong to the session too. -/
theorem after {stage : Stage} (h : Consistent root m) (keeps : Keeps m.store s)
    (tables : s.tables.size = m.store.tables.size)
    (closures : ∀ (k : Nat) (c : Closure), s.closures[k]? = some c →
      m.store.closures[k]? = some c ∨ c.env ∈ m.stage.envs)
    (calls : ∀ env ∈ stage.envs, env.Belongs root s) : Consistent root ⟨stage, s⟩ := by
  refine ⟨tables.symm ▸ h.table, ?_, ?_⟩
  · obtain ⟨alist, single⟩ := h.single
    obtain ⟨g, groot, cell⟩ := Store.cell?_eq_some single
    obtain ⟨new, cell', -⟩ := keeps g _ cell
    rw [groot]
    exact ⟨new, cell'⟩
  rintro env (rfl | ⟨k, c, closure, rfl⟩ | henv)
  · exact (h.environments _ (.inl rfl)).keep keeps
  · rcases closures k c closure with old | known
    · exact (h.environments _ (.inr (.inl ⟨k, c, old, rfl⟩))).keep keeps
    · exact (h.environments _ (.inr (.inr known))).keep keeps
  · exact calls env henv

/-- The calls that are going on keep their environments while data is added. -/
theorem addsData (h : Consistent root m) (adds : AddsData m.store s) :
    Consistent root ⟨m.stage, s⟩ :=
  h.after (.of_extends adds.toExtends) adds.tableCount
    (fun _ _ closure => .inl (adds.sameClosures ▸ closure))
    fun env henv => (h.environments env (.inr (.inr henv))).keep (.of_extends adds.toExtends)

theorem effect {stage : Stage} (h : Consistent root m) (effect : Effect m ds s)
    (calls : ∀ env ∈ stage.envs, env.Belongs root s) : Consistent root ⟨stage, s⟩ :=
  h.after effect.keeps effect.tables (fun _ _ closure => effect.closures closure) calls

theorem step (h : Consistent root m) (step : Step m ds m') : Consistent root m' := by
  refine h.effect step.effect fun env henv => ?_
  rcases step.envs henv with known | ⟨k, c, args, closure, call⟩
  · exact (h.environments env (.inr (.inr known))).keep step.effect.keeps
  · have captured := h.environments c.env (.inr (.inl ⟨k, c, closure, rfl⟩))
    have extended := captured.extend c.params args
    rw [call] at extended
    exact extended

theorem idle (h : Consistent root m) : Consistent root ⟨.idle, m.store⟩ :=
  ⟨h.table, h.single, fun env known => h.environments env (known.imp_right fun known =>
    known.imp_right fun henv => absurd henv List.not_mem_nil)⟩

theorem move (h : Consistent root m) (move : Move root m ds m') :
    Keeps m.store m'.store ∧ Consistent root m' := by
  cases move with
  | step step => exact ⟨step.effect.keeps, h.step step⟩
  | @line text rest form s s' reading =>
    have adds := Reading.store_leaves _ h.table (.inl ⟨_, reading⟩)
    refine ⟨.of_extends adds.toExtends, h.effect (.data adds) fun env henv => ?_⟩
    rw [List.mem_singleton.1 henv]
    exact (h.environments root (.inl rfl)).keep (.of_extends adds.toExtends)
  | refused reading =>
    have adds := Reading.store_leaves _ h.table (.inr ⟨_, reading⟩)
    exact ⟨.of_extends adds.toExtends, h.addsData adds⟩
  | answered => exact ⟨.of_extends (.refl _), h.idle⟩

theorem course (h : Consistent root m) (course : Course (Move root) m ds m') :
    Keeps m.store m'.store ∧ Consistent root m' := by
  induction course with
  | refl => exact ⟨.of_extends (.refl _), h⟩
  | next _ last ih =>
    obtain ⟨keeps, consistent⟩ := ih
    obtain ⟨keeps', consistent'⟩ := consistent.move last
    exact ⟨keeps.trans keeps', consistent'⟩

/-- An evaluation may be asked for in an environment of the session. -/
theorem ask (h : Consistent root m) {env : Env} (known : m.Knows root env) (form : Value) :
    Consistent root ⟨.ask (.eval form env) [], m.store⟩ := by
  refine h.effect (.data (.refl _)) fun e he => ?_
  rw [List.mem_singleton.1 he]
  exact h.environments env known

theorem grounded (root : Env) : Grounded (Consistent root) where
  step h step := h.step step
  framed h env henv := by
    obtain ⟨alist, single⟩ := h.single
    rw [(h.environments env (.inr (.inr henv))).globalFrames_eq]
    exact ⟨_, single⟩

/-- An evaluation in an environment of the session keeps the environments of the calls that are
going on around it, also if it is stopped. -/
theorem eval (h : Consistent root m) {env : Env} (known : m.Knows root env) {width depth : Nat}
    {form : Value} (leaves : ((Engine.core width depth).eval form env).Leaves m.store s) :
    Consistent root ⟨m.stage, s⟩ := by
  obtain ⟨ds, m', course, rfl⟩ := (grounded root).passes (h.ask known form) leaves
  obtain ⟨keeps, finished⟩ := (h.ask known form).course (course.mono .step)
  refine ⟨finished.table, finished.single, ?_⟩
  rintro e (rfl | captured | he)
  · exact finished.environments _ (.inl rfl)
  · exact finished.environments e (.inr (.inl captured))
  · exact (h.environments e (.inr (.inr he))).keep keeps

theorem set (h : Consistent root m) {env : Env} (known : m.Knows root env) (key value : Value) :
    ∃ s, env.set key value m.store = .ok () s ∧ Consistent root ⟨m.stage, s⟩ := by
  obtain ⟨g, cells, frames, -, chain, -⟩ := (h.environments env known).frames
  obtain ⟨frame, cell⟩ : ∃ frame, m.store.cell? env.frames = some frame := by
    generalize env.frames = first at chain
    cases cells with
    | nil =>
      cases chain with
      | cons cell _ => exact ⟨_, cell⟩
    | cons _ _ =>
      cases chain with
      | cons cell _ => exact ⟨_, cell⟩
  have keeps := Keeps.bind cell key value
  refine ⟨_, set_apply_of_some cell key value, h.after keeps ?_ (fun k c closure => .inl ?_)
    fun e he => (h.environments e (.inr (.inr he))).keep keeps⟩
  · rw [Store.tables_bind]
  · rwa [Store.closures_bind] at closure

end Consistent

/-- What a session does next, where a line may also be given up at any moment. -/
inductive Turn (root : Env) : Moment → List Defined → Moment → Prop where
  | move {m m' : Moment} {ds : List Defined} (h : Move root m ds m') : Turn root m ds m'
  | givenUp {m : Moment} : Turn root m [] ⟨.idle, m.store⟩

/-- The moments that come up in a fresh session, some lines of which may have been given up. -/
def Visited (root : Env) (m : Moment) : Prop :=
  ∃ s ds, Env.newSession Store.empty = .ok root s ∧ Course (Turn root) ⟨.idle, s⟩ ds m

/-- What holds at the start and is kept by every move, also when a line is given up, holds at all
moments. -/
theorem Visited.invariant {root : Env} {P : Moment → Prop}
    (start : ∀ s, Env.newSession Store.empty = .ok root s → P ⟨.idle, s⟩)
    (move : ∀ {m ds m'}, P m → Move root m ds m' → P m')
    (idle : ∀ {m}, P m → P ⟨.idle, m.store⟩) {m : Moment} (h : Visited root m) : P m := by
  obtain ⟨s, ds, fresh, course⟩ := h
  induction course with
  | refl => exact start s fresh
  | next _ last ih =>
    cases last with
    | move last => exact move ih last
    | givenUp => exact idle ih

theorem consistent_newSession {root : Env} {s : Store}
    (fresh : Env.newSession Store.empty = .ok root s) : Consistent root ⟨.idle, s⟩ := by
  cases newSession_eq.symm.trans fresh
  refine ⟨by decide, ⟨.cons 8, rfl⟩, ?_⟩
  rintro env (rfl | ⟨k, c, closure, -⟩ | henv)
  · refine ⟨rfl, rfl, 0, [], [.cons 8], rfl, .cons rfl .nil, fun frame hframe => ?_⟩
    rw [List.mem_singleton.1 hframe]
    refine ⟨_, _, .cons rfl (.cons rfl (.cons rfl (.cons rfl .nil))), ?_⟩
    simp [Store.cell?]
  · simp at closure
  · simp [Stage.envs] at henv

theorem Visited.consistent {root : Env} {m : Moment} (h : Visited root m) : Consistent root m :=
  h.invariant (fun _ => consistent_newSession) (fun h move => (h.move move).2) Consistent.idle

/-- A line leads from a moment of a session to another one, whatever comes of it. -/
theorem Visited.line {root : Env} {width depth : Nat} {line : String} {s s' : Store}
    (h : Visited root ⟨.idle, s⟩) (leaves : ((Engine.core width depth).rep root line).Leaves s s') :
    Visited root ⟨.idle, s'⟩ := by
  rcases leaves with ⟨out, answer⟩ | ⟨stop, stopped⟩
  · obtain ⟨s₀, ds, fresh, course⟩ := h
    obtain ⟨-, -, -, -, ds', -, -, later⟩ := course_of_rep answer
    exact ⟨s₀, _, fresh, course.trans (later.mono .move)⟩
  rcases Engine.rep_eq_error_iff.1 stopped with refused | ⟨form, rest, s₁, reading, stopped⟩
  · obtain ⟨s₀, ds, fresh, course⟩ := h
    exact ⟨s₀, _, fresh, course.next (.move (.refused refused))⟩
  · have asked : Visited root ⟨.ask (.eval form root) [], s₁⟩ := by
      obtain ⟨s₀, ds, fresh, course⟩ := h
      exact ⟨s₀, _, fresh, course.next (.move (.line reading))⟩
    obtain ⟨ds', m', later, rfl⟩ :=
      (Consistent.grounded root).passes asked.consistent (.inr ⟨stop, stopped⟩)
    obtain ⟨s₀, ds, fresh, course⟩ := asked
    have stops := course.trans (later.mono fun step => .move (.step step))
    exact ⟨s₀, _, fresh, stops.next .givenUp⟩

theorem visited_of_rep {root : Env} {width depth : Nat} {line : String} {s : Store}
    (run : (do
      let root ← Env.newSession
      let _ ← (Engine.core width depth).rep root line
      return root : Run Env) Store.empty = .ok root s) : Visited root ⟨.idle, s⟩ := by
  obtain ⟨_, s₀, fresh, run⟩ := Run.bind_eq_ok_iff.1 run
  obtain ⟨out, s₁, answer, same⟩ := Run.bind_eq_ok_iff.1 run
  cases same
  have start : Visited root ⟨.idle, s₀⟩ := ⟨s₀, [], fresh, .refl⟩
  exact start.line (.inl ⟨out, answer⟩)

/-- At every moment of a session, each environment, whether it is the global one, one that a closure
has captured or that of a call, has the one table and the one global environment, and its frames are
lists of pairs that end in the one cell of the global frame. Lines lead from one such moment to
another one, also lines that are given up. Every operation keeps this: reading, each step of an
evaluation and all of one, a call, and a definition. So a definition never lacks a frame, and
looking a key up in any environment ends. -/
theorem environments_belong :
    (∀ root s, Env.newSession Store.empty = .ok root s →
      Visited root ⟨.idle, s⟩ ∧ Consistent root ⟨.idle, s⟩) ∧
    (∀ root s width depth line s', Visited root ⟨.idle, s⟩ →
      ((Engine.core width depth).rep root line).Leaves s s' → Visited root ⟨.idle, s'⟩) ∧
    (∀ root m, Visited root m → Consistent root m) ∧
    ∀ root m, Consistent root m →
      (∀ ds m', Move root m ds m' → Consistent root m') ∧ Consistent root ⟨.idle, m.store⟩ ∧
      (∀ text s, (read root.table text).Leaves m.store s → Consistent root ⟨m.stage, s⟩) ∧
      ∀ env, m.Knows root env →
        (∀ width depth form s, ((Engine.core width depth).eval form env).Leaves m.store s →
          Consistent root ⟨m.stage, s⟩) ∧
        (∀ params args, ∃ e s, env.extend params args m.store = .ok e s ∧ e.Belongs root s ∧
          Consistent root ⟨m.stage, s⟩) ∧
        (∀ key value, ∃ s, env.set key value m.store = .ok () s ∧
          Consistent root ⟨m.stage, s⟩) ∧
        (∀ key value, ∃ s, env.global.set key value m.store = .ok () s ∧
          Consistent root ⟨m.stage, s⟩) ∧
        ∀ key, ∃ found, Finds m.store key .nil env.frames found ∧
          env.find? key m.store = .ok found m.store := by
  refine ⟨fun root s fresh => ⟨⟨s, [], fresh, .refl⟩, consistent_newSession fresh⟩,
    fun root s width depth line s' visited leaves => visited.line leaves,
    fun root m => Visited.consistent, fun root m h => ⟨fun ds m' move => (h.move move).2, h.idle,
      fun text s reading => ?_, fun env known => ?_⟩⟩
  · exact h.addsData (Reading.store_leaves _ h.table reading)
  · have belongs := h.environments env known
    refine ⟨fun width depth form s => h.eval known, fun params args => ?_,
      fun key value => h.set known key value, fun key value => ?_, fun key => ?_⟩
    · have allocates := m.store.allocates_extend env params args
      exact ⟨_, _, env.extend_apply params args m.store, belongs.extend params args,
        h.addsData allocates.addsData⟩
    · rw [belongs.global]
      exact h.set (.inl rfl) key value
    · exact ⟨_, belongs.finds key, env.find?_eq key m.store⟩

/-- A function that has captured the environment of a call: its variable is found in the frame in
front of the global one. -/
theorem environments_belong_captured : ∃ root m env pair, Visited root m ∧ m.Knows root env ∧
    env.frames ≠ root.frames ∧ env.Belongs root m.store ∧
    Finds m.store (.sym ⟨7, "x"⟩) .nil env.frames (some pair) ∧
    m.store.cdr pair = .sym ⟨8, "a"⟩ := by
  have value : (match (do
        let root ← Env.newSession
        let _ ← (Engine.core 5 5).rep root "((lambda (x) (lambda () x)) 'a)"
        return root : Run Env) Store.empty with
      | .ok root s => s.closures[1]?.map fun (c : Closure) => (decide (c.env.frames = root.frames),
          (s.findPair? c.env.frames (.sym ⟨7, "x"⟩)).map s.cdr)
      | .error _ _ => none) = some (false, some (.sym ⟨8, "a"⟩)) := by
    decide +kernel
  split at value
  · next root s run =>
    obtain ⟨c, closure, value⟩ := Option.map_eq_some_iff.1 value
    simp only [Prod.mk.injEq, decide_eq_false_iff_not, Option.map_eq_some_iff] at value
    obtain ⟨inner, pair, found, value⟩ := value
    have visited := visited_of_rep run
    have known : Moment.Knows root ⟨.idle, s⟩ c.env := .inr (.inl ⟨1, c, closure, rfl⟩)
    obtain ⟨-, -, consistent, operations⟩ := environments_belong
    have here := consistent root _ visited
    obtain ⟨-, -, -, -, walk⟩ := (operations root _ here).2.2.2 c.env known
    obtain ⟨found', walk, find⟩ := walk (.sym ⟨7, "x"⟩)
    rw [Env.find?_eq, found] at find
    cases find
    exact ⟨root, _, c.env, pair, visited, known, inner, here.environments _ known, walk, value⟩
  · cases value

end PocketLisp
