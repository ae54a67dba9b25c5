import PocketLisp.Proofs.LineOutcomes
import PocketLisp.Proofs.Seclusion
import PocketLisp.Proofs.StoredErrors

/-!
# Interpreters that reside in a shared store

An interpreter is among others whose global frames it does not reach. What it has defined is
represented by the store as the interpreter sees it. This stays so while others change their own
frames, and a line of the interpreter comes to what the reference semantics tells of it.
-/
namespace PocketLisp

/-- The realm of an environment among the global frames of several: that of its own table and global
frame, without the frames of the others. -/
def Realm.among (frames : List Value) (env : Env) : Realm :=
  ⟨fun a => .cons a ∈ frames → env.globalFrames = .cons a,
    fun table v => table = env.table ∧ v = env.globalFrames⟩

theorem Realm.ownedBy_among (frames : List Value) (env : Env) :
    (Realm.among frames env).OwnedBy env := fun _ _ => id

def Store.HasFrames (s : Store) (frames : List Value) : Prop :=
  ∀ v ∈ frames, ∃ a < s.cells.size, v = .cons a

theorem Store.HasFrames.fresh {s : Store} {frames : List Value} (h : s.HasFrames frames) (env : Env)
    (a : Nat) (ha : s.cells.size ≤ a) : (Realm.among frames env).cells a := by
  intro hmem
  obtain ⟨b, hb, e⟩ := h _ hmem
  cases e
  omega

theorem Store.HasFrames.mono {s s' : Store} {frames : List Value} (h : s.HasFrames frames)
    (size : s.cells.size ≤ s'.cells.size) : s'.HasFrames frames := by
  intro v hv
  obtain ⟨a, ha, rfl⟩ := h v hv
  exact ⟨a, Nat.lt_of_lt_of_le ha size, rfl⟩

/-- What a confined value shows stays if the cells and closures of the realm stay. The cell of the
global frame does not count. -/
theorem Shows.congr {R : Realm} {table global : Nat} {s s' : Store} {v : Value} {view : View}
    (h : Shows table global s v view) (confined : Confined R s v)
    (cells : ∀ (a : Nat) (c : Cell), a ≠ global → R.cells a → s.cells[a]? = some c →
      s'.cells[a]? = some c)
    (closures : ∀ (k : Nat) (c : Closure), R.envs c.env.table c.env.globalFrames →
      s.closures[k]? = some c → s'.closures[k]? = some c)
    (symbols : ∀ (table : Nat) (name : String) (sym : Symbol),
      s.findSymbol? table name = some sym → s'.findSymbol? table name = some sym) :
    Shows table global s' v view := by
  refine h.transfer confined (fun a c inner hv cell => ?_) (fun k c hv closure => ?_) symbols
  · exact ⟨cells a c inner hv.admits.2 cell, hv.parts_of_cell? cell⟩
  · obtain ⟨params, body, env⟩ := hv.closure closure
    exact ⟨closures k c env.own closure, params, body, env.frames⟩

/-- The evaluation of a wrapped error is the same in the secluded store, and it stores nothing. -/
theorem Answers.secluded_of_wrapped {s s' : Store} {env : Env} {form v : Value} {d : Datum}
    (h : Answers (.eval form env) s v s') (wrapped : Wrapped d)
    (denotes : Denotes s env.table form d) :
    s' = s ∧ Answers (.eval form env) (s.secluded env) v (s.secluded env) := by
  rcases wrapped.eval denotes with ⟨serial, message, rfl⟩ | ⟨a, op, args, rfl, cell, head⟩
  · obtain ⟨rfl, rfl⟩ := h.unique (.self (by simp) rfl)
    exact ⟨rfl, .self (by simp) rfl⟩
  · obtain ⟨rfl, rfl⟩ := h.unique (.quote cell head)
    exact ⟨rfl, Answers.quote (s := s'.secluded env) cell (Store.keyword_secluded head)⟩

/-- An interpreter in a store, among the global frames of several: its global frame is a cell, what
it reaches is its own, and the store as it sees it represents its globals. -/
structure Resides (frames : List Value) (s : Store) (env : Env) (global : Nat) (g : Globals) :
    Prop where
  frame : env.frames = .cons global
  root : env.globalFrames = .cons global
  confined : env.ConfinedTo (.among frames env) s
  represents : Represents env.table global (s.secluded env) g

namespace Resides
variable {frames : List Value} {s s' : Store} {env : Env} {global : Nat} {g : Globals}

theorem holds (h : Resides frames s env global g) (s : Store) :
    Holds env.table global s env [] :=
  ⟨rfl, h.root, h.frame ▸ .root⟩

theorem global_lt (h : Resides frames s env global g) : global < s.cells.size :=
  h.represents.global_lt

theorem keep (h : Resides frames s env global g)
    (cells : ∀ (a : Nat) (c : Cell), (Realm.among frames env).cells a → s.cells[a]? = some c →
      s'.cells[a]? = some c)
    (closures : ∀ (k : Nat) (c : Closure), s.closures[k]? = some c → s'.closures[k]? = some c)
    (symbols : ∀ (table : Nat) (name : String) (sym : Symbol),
      s.findSymbol? table name = some sym → s'.findSymbol? table name = some sym)
    (tables : s.tables.size ≤ s'.tables.size) : Resides frames s' env global g where
  frame := h.frame
  root := h.root
  confined := h.confined.keep fun v hv => hv.congr cells fun k c _ => closures k c
  represents := by
    obtain ⟨alist, bindings, cell, shows, hg⟩ := h.represents.frame
    refine ⟨Nat.lt_of_lt_of_le h.represents.hasTable tables, Store.rooted_secluded h.root s', alist,
      bindings, cells _ _ (fun _ => h.root) cell, ?_, hg⟩
    have frame := (h.root ▸ h.confined.globalFrames).parts_of_cell? cell
    refine shows.congr (frame.1.secluded (Realm.ownedBy_among frames env)) (fun a c _ => cells a c)
      (fun k c _ closure => ?_) symbols
    rw [Store.closures_secluded, Option.map_eq_some_iff] at closure ⊢
    obtain ⟨c, closure, rfl⟩ := closure
    exact ⟨c, closures k c closure, rfl⟩

theorem of_extends (h : Resides frames s env global g) (grow : Extends s s')
    (tables : s.tables.size ≤ s'.tables.size) : Resides frames s' env global g :=
  h.keep (fun a c _ => grow.cells a c) grow.closures grow.symbols tables

/-- Others may change their global frames. -/
theorem beside (h : Resides frames s env global g) {other : Nat} (grow : GrowsAt other s s')
    (hother : .cons other ∈ frames) (hne : other ≠ global)
    (tables : s'.tables.size = s.tables.size) : Resides frames s' env global g := by
  refine h.keep (fun a c inside cell => ?_) grow.closures grow.symbols tables.ge
  refine grow.keep (fun e => hne ?_) cell
  subst e
  exact Value.cons.inj ((inside hother).symm.trans h.root)

/-- A frame that is not in the store yet may join. -/
theorem welcome (h : Resides frames s env global g) {new : Nat} (hnew : s.cells.size ≤ new) :
    Resides (.cons new :: frames) s env global g where
  frame := h.frame
  root := h.root
  confined := by
    have wider : ∀ v, Confined (.among frames env) s v →
        Confined (.among (.cons new :: frames) env) s v := by
      refine fun v hv => hv.mono (fun a ha inside hmem => ?_) fun _ _ _ => id
      rcases List.mem_cons.1 hmem with e | hmem
      · cases e
        omega
      · exact inside hmem
    exact ⟨h.confined.own, wider _ h.confined.frames, wider _ h.confined.globalFrames⟩
  represents := h.represents

theorem addsData (h : Resides frames s env global g) (adds : AddsData s s') :
    Resides frames s' env global g :=
  h.of_extends adds.toExtends adds.tableCount.ge

section evaluation

variable {form : Value} {d : Datum} (h : Resides frames s env global g)
  (inStore : s.HasFrames frames) (denotes : Denotes s env.table form d)
  (hform : Confined (.among frames env) s form ∨ Wrapped d)
include h inStore denotes hform

/-- The evaluation of what has been read is one in the secluded stores too. It keeps what is the
interpreter's own, and changes no other frame. -/
theorem evaluates {v : Value} (answers : Answers (.eval form env) s v s') :
    Answers (.eval form env) (s.secluded env) v (s'.secluded env) ∧
      env.ConfinedTo (.among frames env) s' ∧ GrowsAt global s s' ∧
      s'.tables.size = s.tables.size := by
  have own := Realm.ownedBy_among frames env
  rcases hform with confined | wrapped
  · have goal : (Goal.eval form env).ConfinedTo (.among frames env) s := ⟨confined, h.confined⟩
    have fresh := inStore.fresh env
    obtain ⟨keep, -, -⟩ := answers.confined goal fresh
    obtain ⟨ds, course⟩ := answers_iff_performs.1 answers
    obtain ⟨grow, tables⟩ := course.growsAt ⟨goal, by simp⟩ (fun _ _ he => he.2.trans h.root) fresh
      h.global_lt
    exact ⟨answers.secluded goal own fresh, h.confined.keep keep, grow, tables⟩
  · obtain ⟨rfl, answers⟩ := answers.secluded_of_wrapped wrapped denotes
    exact ⟨answers, h.confined, .refl global _, rfl⟩

theorem noFault (width depth : Nat) : NoFault ((Engine.core width depth).eval form env) s := by
  rcases hform with confined | wrapped
  · have framed : (Realm.among frames env).Framed s.cells.size :=
      ⟨fun _ _ he => ⟨global, he.2.trans h.root⟩, inStore.fresh env⟩
    exact run_noFault framed (Nat.le_refl _) confined h.confined
  · exact wrapped.noFault denotes width depth

end evaluation

/-- A line comes to what the reference semantics tells of it, and the interpreter resides in the
store after it. No other frame has been changed. -/
theorem responds (h : Resides frames s env global g) (inStore : s.HasFrames frames)
    {width depth : Nat} {line : String} {outcome : Except Fault String}
    (attempt : ((Engine.core width depth).rep env line).attempt s = .ok outcome s') :
    ∃ g', Responds g line outcome g' ∧ Resides frames s' env global g' ∧ GrowsAt global s s' ∧
      s'.tables.size = s.tables.size := by
  have hT : env.table < s.tables.size := h.represents.hasTable
  -- What holds after the line has been read, also if its form is evaluated then.
  have read : ∀ {form : Value} {rest : List Char} {s₁ : Store},
      read env.table line.toList s = .ok (form, rest) s₁ → ∃ names d short,
        readForm line.toList [] line.toList (Nat.le_succ _) = .form names d rest short ∧
        AddsData s s₁ ∧ Unfolds s₁ (s₁.IsAtom env.table) (s.cells.size ≤ ·) form d ∧
        (Confined (.among frames env) s₁ form ∨ Wrapped d) := by
    intro form rest s₁ reading
    obtain ⟨adds, names, d, short, hform, unfolds, outcome⟩ := read_spec hT reading
    exact ⟨names, d, short, hform, adds, unfolds, outcome.imp
      (fun reads => unfolds.confined reads.isErrorFree (inStore.fresh env)) id⟩
  rcases Run.attempt_eq_ok_iff.1 attempt with ⟨out, rfl, answer⟩ | ⟨f, rfl, refusal⟩
  · obtain ⟨form, rest, s₁, v, reading, evaluation, rfl⟩ := Engine.rep_eq_ok_iff.1 answer
    obtain ⟨names, d, short, hform, adds, unfolds, confined⟩ := read reading
    have h₁ := h.addsData adds
    obtain ⟨answers, own, grow, tables⟩ := h₁.evaluates (inStore.mono adds.size_le)
      unfolds.denotes confined (answers_of_run evaluation)
    have shows : Shows env.table global (s₁.secluded env) form (.value (d.map Atom.toPure)) := by
      refine Unfolds.shows (unfolds.imp (fun _ _ atom => atom) fun a c hnew cell => ⟨?_, cell⟩)
      have := h.global_lt
      omega
    obtain ⟨x, g', value, result, represents⟩ :=
      answers.evaluates (.eval shows (h₁.holds _)) h₁.represents
    have written : s'.print v = x.written pureSpelling := by
      rw [← result.shows.print_eq, Store.secluded, Store.print_withClosures]
    rw [written]
    exact ⟨g', .answer hform value, ⟨h.frame, h.root, own, represents⟩,
      (adds.toExtends.growsAt global).trans grow h.global_lt, tables.trans adds.tableCount⟩
  · rcases Engine.rep_eq_error_iff.1 refusal with reading | ⟨form, rest, s₁, reading, evaluation⟩
    · have adds := Reading.store_leaves _ hT (.inr ⟨_, reading⟩)
      obtain ⟨names, digits, hform, hstop, -⟩ := read_eq_error reading
      cases hstop
      exact ⟨g, .refusal hform, h.addsData adds, adds.toExtends.growsAt global,
        adds.tableCount⟩
    · obtain ⟨names, d, short, -, adds, unfolds, confined⟩ := read reading
      have faultless := (h.addsData adds).noFault (inStore.mono adds.size_le)
        unfolds.denotes confined width depth
      exact absurd evaluation (faultless f s')

end Resides

/-- A global environment in the making: all that there was in the first store is still there, and
its frame has bindings that show the given ones. -/
structure Founded (R : Realm) (s₀ : Store) (env : Env) (global : Nat) (s : Store)
    (bindings : List (String × PureValue)) : Prop where
  adds : AddsData s₀ s
  hasTable : env.table < s₀.tables.size
  new : s₀.cells.size ≤ global
  frame : ∃ alist, s.cells[global]? = some ⟨alist, .nil⟩ ∧ Confined R s alist ∧
    Shows env.table global s alist (.bindings bindings)

namespace Founded
variable {R : Realm} {s₀ s s' : Store} {env : Env} {global : Nat}
  {bindings : List (String × PureValue)}

theorem addsData (h : Founded R s₀ env global s bindings) (adds : AddsData s s') :
    Founded R s₀ env global s' bindings where
  adds := h.adds.trans adds
  hasTable := h.hasTable
  new := h.new
  frame := by
    obtain ⟨alist, cell, confined, shows⟩ := h.frame
    exact ⟨alist, adds.cells _ _ cell, confined.grow adds.toExtends,
      shows.grow (adds.growsAt global)⟩

/-- A name that is to be bound is interned first. -/
theorem intern (h : Founded R s₀ env global s bindings) {name : String} (hname : name ≠ "nil") :
    ∃ sym s', s.intern env.table name = (.sym sym, s') ∧ sym.name = name ∧
      s'.findSymbol? env.table name = some sym ∧ Founded R s₀ env global s' bindings := by
  obtain ⟨sym, key, hsym, own⟩ := intern_own (h.adds.tableCount.symm ▸ h.hasTable) hname
  exact ⟨sym, _, Prod.ext key rfl, hsym, own, h.addsData (s.addsData_intern env.table name)⟩

variable (fresh : ∀ a, s₀.cells.size ≤ a → R.cells a) (henv : env.frames = .cons global)
include fresh henv

theorem set (h : Founded R s₀ env global s bindings) {sym : Symbol}
    (own : s.findSymbol? env.table sym.name = some sym) {value : Value} {x : PureValue}
    (hvalue : Confined R s value) (shows : Shows env.table global s value (.value x)) :
    ∃ s', env.set (.sym sym) value s = .ok ⟨⟩ s' ∧
      Founded R s₀ env global s' ((sym.name, x) :: bindings) := by
  obtain ⟨alist, cell, confined, others⟩ := h.frame
  have size := h.adds.size_le
  have hglobal := (Array.getElem?_eq_some_iff.1 cell).1
  obtain ⟨old, front, next, pair, -⟩ := Store.bind_spec cell (.sym sym) value
  have keep : ∀ v, Confined R s v →
      Confined R (s.bind (.cons global) alist (.sym sym) value) v := by
    intro v hv
    have bound := hv.bind (.cons cell (fresh _ h.new) confined .nil) cell (@Confined.sym _ _ sym)
      hvalue fun a ha => fresh a (Nat.le_trans size ha)
    exact bound
  have closures := s.closures_bind (.cons global) alist (.sym sym) value
  have symbols := s.findSymbol?_bind (.cons global) alist (.sym sym) value
  have shown : ∀ {v : Value} {view : View}, Confined R s v → Shows env.table global s v view →
      Shows env.table global (s.bind (.cons global) alist (.sym sym) value) v view :=
    fun confined shows => shows.congr confined
      (fun a c inner _ hc => (old a (Array.getElem?_eq_some_iff.1 hc).1 inner).trans hc)
      (fun k c _ hc => closures ▸ hc) fun t n _ found => (symbols t n).trans found
  have hframe : s.cell? env.frames = some ⟨alist, .nil⟩ := by
    rw [henv]
    exact cell
  have defined := set_apply_of_some hframe (.sym sym) value
  rw [henv] at defined
  refine ⟨_, defined, h.adds.bind h.new cell _ _, h.hasTable, h.new, _, front, ?_, ?_⟩
  · exact .cons next (fresh _ (by omega)) (.cons pair (fresh _ size) .sym (keep _ hvalue))
      (keep _ confined)
  · exact .bind (by omega) next (by omega) pair ((symbols _ _).trans own) (shown hvalue shows)
      (shown confined others)

theorem define (h : Founded R s₀ env global s bindings) {name : String} (hname : name ≠ "nil")
    (b : Builtin) : ∃ s', env.define name (.subr 0 b.procedure) s = .ok ⟨⟩ s' ∧
      Founded R s₀ env global s' ((name, .atom (.builtin b)) :: bindings) := by
  obtain ⟨sym, s₁, key, rfl, own, h₁⟩ := h.intern hname
  obtain ⟨s', set, h'⟩ := h₁.set fresh henv own .subr (@Shows.subr _ _ _ 0 b)
  refine ⟨s', ?_, h'⟩
  rw [Env.define, Run.make_bind_apply, key]
  exact set

end Founded

theorem newGlobal_spec (table : Nat) (s : Store) : ∃ env s', Env.newGlobal table s = .ok env s' ∧
    env.frames = .cons s.cells.size ∧ env.globalFrames = .cons s.cells.size ∧ env.table = table ∧
    Allocates s s' ∧ s'.cells[s.cells.size]? = some ⟨.nil, .nil⟩ := by
  have grow := (s.allocates_cons .nil .nil).trans
    (Store.allocates_newRoot _ (.cons s.cells.size) table)
  exact ⟨_, _, rfl, rfl, rfl, rfl, grow, Store.getElem?_cons_self s .nil .nil⟩

/-- An interpreter that joins has the bindings of the core procedures, and leaves all as it was. -/
theorem Resides.of_newCore {frames : List Value} {s s' : Store} {table : Nat} {env : Env}
    (hT : table < s.tables.size) (inStore : s.HasFrames frames)
    (core : Env.newCore table s = .ok env s') : AddsData s s' ∧
      Resides (.cons s.cells.size :: frames) s' env s.cells.size (.ofBindings coreBindings) := by
  obtain ⟨e, s₁, global, hframes, hroot, htable, grow, cell⟩ := newGlobal_spec table s
  subst htable
  have fresh : ∀ a, s.cells.size ≤ a →
      (Realm.among (.cons s.cells.size :: frames) e).cells a := by
    intro a ha hmem
    rcases List.mem_cons.1 hmem with same | hmem
    · rw [hroot, same]
    · exact inStore.fresh e a ha hmem
  have h₁ : Founded (.among (.cons s.cells.size :: frames) e) s e s.cells.size s₁ [] :=
    ⟨grow.addsData, hT, Nat.le_refl _, .nil, cell, .nil, .noBindings⟩
  obtain ⟨s₂, car, h₂⟩ := h₁.define fresh hframes (by decide : "car" ≠ "nil") .car
  obtain ⟨s₃, cdr, h₃⟩ := h₂.define fresh hframes (by decide : "cdr" ≠ "nil") .cdr
  obtain ⟨s₄, cons, h₄⟩ := h₃.define fresh hframes (by decide : "cons" ≠ "nil") .cons
  obtain ⟨t, s₅, key, name, own, h₅⟩ := h₄.intern (by decide : "t" ≠ "nil")
  rw [← name] at own
  obtain ⟨s₆, set, h₆⟩ := h₅.set fresh hframes own .sym (.sym own)
  have made : Env.newCore e.table s = .ok e s₆ := by
    rw [Env.newCore, Run.bind_apply_of_ok global]
    refine (Run.bind_apply_of_ok car _).trans ((Run.bind_apply_of_ok cdr _).trans
      ((Run.bind_apply_of_ok cons _).trans ?_))
    rw [Run.make_bind_apply, key, Run.bind_apply_of_ok set]
    rfl
  cases made.symm.trans core
  obtain ⟨alist, cell, confined, shows⟩ := h₆.frame
  rw [name] at shows
  have hglobal := Confined.cons cell (fresh _ (Nat.le_refl _)) confined .nil
  refine ⟨h₆.adds, hframes, hroot, ⟨⟨rfl, rfl⟩, hframes ▸ hglobal, hroot ▸ hglobal⟩,
    h₆.adds.tableCount.symm ▸ hT, Store.rooted_secluded hroot _, alist, coreBindings, cell, ?_, rfl⟩
  exact shows.congr confined (fun _ _ _ _ => id)
    (fun _ _ => (Realm.ownedBy_among _ env).closures) fun _ _ _ => id

end PocketLisp
