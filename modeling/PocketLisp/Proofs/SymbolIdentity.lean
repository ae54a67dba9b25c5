import PocketLisp.Proofs.Conversations
import PocketLisp.Proofs.InternedSymbols

/-!
# The identity of symbols

Symbols are compared by identity when a name is looked up and when the head of a form is compared to
the special forms. In a session this decides whether the names are the same: all symbols that a
session leads to are those of its table, which has one symbol for a name and never gives it up.
-/
namespace PocketLisp

theorem Value.OwnedBy.own {table : Nat} {s : Store} {v : Value} (h : v.OwnedBy table s) :
    ∀ sym, v = .sym sym → s.findSymbol? table sym.name = some sym := by
  rintro sym rfl
  exact h

theorem Value.OwnedBy.sym_eq_iff {table : Nat} {s : Store} {x y : Symbol}
    (hx : (Value.sym x).OwnedBy table s) (hy : (Value.sym y).OwnedBy table s) :
    x = y ↔ x.name = y.name := by
  constructor
  · exact congrArg _
  · intro same
    have found : s.findSymbol? table x.name = some x := hx
    rw [same] at found
    exact Option.some.inj (found.symm.trans hy)

namespace Store.Interned
variable {table : Nat} {s : Store} (h : s.Interned table)
include h

theorem binds_iff {sym : Symbol} (own : (Value.sym sym).OwnedBy table s) (pair : Value) :
    s.binds (.sym sym) pair = true ↔ ∃ c, s.cell? pair = some c ∧ c.car.name? = some sym.name := by
  cases hc : s.cell? pair with
  | none => simp [binds, hc]
  | some c =>
    have owned := (h.cell? hc).1
    obtain ⟨car, cdr⟩ := c
    cases car with
    | sym x => simpa [binds, hc, Value.name?] using Value.OwnedBy.sym_eq_iff owned own
    | _ => simp [binds, hc, Value.name?]

/-- A name that is found in the table is that of the symbol, and not that of the empty list. -/
theorem findSymbol?_eq_some {name : String} {sym : Symbol}
    (found : s.findSymbol? table name = some sym) : sym.name = name ∧ name ≠ "nil" := by
  have hname := Store.name_of_findSymbol? found
  refine ⟨hname, ?_⟩
  rintro rfl
  exact h.noNil (List.mem_map.2 ⟨sym, List.mem_of_find?_eq_some found, hname⟩)

end Store.Interned

theorem Reached.interned {root : Env} {m : Moment} (h : Reached root m) :
    m.Interned root.table ∧ root.OwnedBy root.table m.store := by
  obtain ⟨s, ds, fresh, course⟩ := h
  obtain ⟨interned, hroot⟩ := newSession_interned fresh
  obtain ⟨keeps, interned'⟩ := course.interned ⟨interned, trivial⟩ hroot
  exact ⟨interned', hroot.keep keeps⟩

theorem Calls.reached {root : Env} {vs : List Value} {s₀ s : Store}
    (fresh : Env.newSession Store.empty = .ok root s₀) (h : Calls root s₀ vs s) :
    Reached root ⟨.idle, s⟩ := by
  have start : Reached root ⟨.idle, s₀⟩ := ⟨s₀, [], fresh, .refl⟩
  obtain ⟨⟨ds, course⟩, -⟩ := h.course start
  exact start.later course

theorem Calls.owned {root : Env} {vs : List Value} {s₀ s : Store}
    (fresh : Env.newSession Store.empty = .ok root s₀) (h : Calls root s₀ vs s) :
    ∀ v ∈ vs, v.OwnedBy root.table s := by
  intro v hv
  have start : Reached root ⟨.idle, s₀⟩ := ⟨s₀, [], fresh, .refl⟩
  obtain ⟨t, ds, ds', value, rest⟩ := (h.course start).2 v hv
  obtain ⟨interned, hroot⟩ := (start.later value).interned
  exact interned.stage.1.keep (rest.interned interned hroot).1

/-- A symbol that calls of a session have led to: it is reached from a value that was returned, from
the global environment, or from the parameters, the body or the environment of a closure. -/
inductive InReach (root : Env) (vs : List Value) (s : Store) (sym : Symbol) : Prop where
  | returned {v : Value} (known : v ∈ vs) (reach : s.Reaches v (.sym sym))
  | global {frames : Value} (known : frames ∈ [root.frames, root.globalFrames])
      (reach : s.Reaches frames (.sym sym))
  | closure {k : Nat} (reach : s.Reaches (.expr k) (.sym sym))

theorem InReach.owned {root : Env} {vs : List Value} {s : Store} {sym : Symbol}
    (h : InReach root vs s sym) (interned : s.Interned root.table)
    (hroot : root.OwnedBy root.table s) (hvs : ∀ v ∈ vs, v.OwnedBy root.table s) :
    (Value.sym sym).OwnedBy root.table s := by
  cases h with
  | returned known reach => exact interned.reaches (hvs _ known) reach
  | @global frames known reach =>
    have owned : ∀ frames ∈ [root.frames, root.globalFrames], frames.OwnedBy root.table s := by
      simpa using ⟨hroot.frames, hroot.globalFrames⟩
    exact interned.reaches (owned frames known) reach
  | closure reach => exact interned.reaches .expr reach

/-- At each moment of a session, looking a symbol up compares names, and so does comparing the head
of a form to the special forms. -/
theorem Reached.decides_names {root : Env} {m : Moment} (h : Reached root m) :
    (∀ sym env w, m.stage = .ask (.eval (.sym sym) env) w → ∀ pair,
      m.store.binds (.sym sym) pair = true ↔
        ∃ c, m.store.cell? pair = some c ∧ c.car.name? = some sym.name) ∧
    ∀ a env w c, m.stage = .ask (.eval (.cons a) env) w → m.store.cells[a]? = some c →
      (∀ name, name ≠ "nil" →
        (c.car = (m.store.intern env.table name).1 ↔ c.car.name? = some name)) ∧
      (m.store.keyword env.table c.car).1 = c.car.name?.bind (List.lookup · keywords) := by
  obtain ⟨interned, -⟩ := h.interned
  obtain ⟨stage, s⟩ := m
  constructor
  · rintro sym env w rfl pair
    exact interned.store.binds_iff interned.stage.1.1 pair
  · rintro a env w c rfl cell
    have own := (interned.store.cells a c cell).1.own
    rw [interned.stage.1.2.own]
    exact ⟨fun name hname => eq_intern_iff interned.store.inStore own hname,
      keywordAmong_eq_lookup interned.store.inStore forall_keywords_ne own⟩

/-- After any calls of a fresh session, lines that cannot be read among them, a name has one symbol
in the table, and it is never replaced; the name of the empty list has none. All symbols that the
session leads to are those of the table, so two of them are the same if their names are. At each
later moment, looking up and recognising a special form come to comparing names. -/
theorem names_decide_identity {root : Env} {vs : List Value} {s₀ s : Store}
    (fresh : Env.newSession Store.empty = .ok root s₀) (calls : Calls root s₀ vs s) :
    (∀ name sym, s.findSymbol? root.table name = some sym → sym.name = name ∧ name ≠ "nil") ∧
    ((s.symbols root.table).map Symbol.name).Nodup ∧
    (∀ ws s', Calls root s ws s' → s.KeepsSymbols root.table s') ∧
    (∀ sym, InReach root vs s sym → s.findSymbol? root.table sym.name = some sym) ∧
    (∀ sym sym', InReach root vs s sym → InReach root vs s sym' →
      (sym = sym' ↔ sym.name = sym'.name)) ∧
    ∀ ds m, Course (Move root) ⟨.idle, s⟩ ds m →
      s.KeepsSymbols root.table m.store ∧
      (∀ sym env w, m.stage = .ask (.eval (.sym sym) env) w → ∀ pair,
        m.store.binds (.sym sym) pair = true ↔
          ∃ c, m.store.cell? pair = some c ∧ c.car.name? = some sym.name) ∧
      ∀ a env w c, m.stage = .ask (.eval (.cons a) env) w → m.store.cells[a]? = some c →
        (∀ name, name ≠ "nil" →
          (c.car = (m.store.intern env.table name).1 ↔ c.car.name? = some name)) ∧
        (m.store.keyword env.table c.car).1 = c.car.name?.bind (List.lookup · keywords) := by
  have reached := calls.reached fresh
  obtain ⟨interned, hroot⟩ := reached.interned
  have owned : ∀ sym, InReach root vs s sym → (Value.sym sym).OwnedBy root.table s :=
    fun sym h => h.owned interned.store hroot (calls.owned fresh)
  refine ⟨fun name sym => interned.store.findSymbol?_eq_some, interned.store.distinct,
    fun ws s' later => ?_, owned, fun sym sym' h h' => (owned sym h).sym_eq_iff (owned sym' h'),
    fun ds m course => ⟨(course.interned interned hroot).1, (reached.later course).decides_names⟩⟩
  obtain ⟨⟨ds, course⟩, -⟩ := later.course reached
  exact (course.interned interned hroot).1

/-- A function that is defined after a line that cannot be read. Its name is returned, and any
symbol of the name of its parameter is its parameter. -/
theorem names_decide_identity_definition : ∃ root s₀ f x s,
    Env.newSession Store.empty = .ok root s₀ ∧ Calls root s₀ [.sym f] s ∧
    InReach root [.sym f] s f ∧ InReach root [.sym f] s x ∧
    s.findSymbol? root.table "f" = some f ∧
    ∀ y, InReach root [.sym f] s y → y.name = "x" → y = x := by
  have value : (match (do
        let root ← Env.newSession
        let _ ← ((Engine.core 4 4).rep root ")").attempt
        ((Engine.core 4 4).evalText root "(defun f (x) x)").attempt : Run _) Store.empty with
      | .ok (.ok v) s => some (v, s.closures[0]?.map Closure.params, s.cells[11]?)
      | .ok (.error _) _ => none
      | .error _ _ => none) =
        some (.sym ⟨8, "f"⟩, some (.cons 11), some ⟨.sym ⟨9, "x"⟩, .nil⟩) := by
    decide +kernel
  split at value
  · next v s run =>
    simp only [Option.some.injEq, Prod.mk.injEq] at value
    obtain ⟨rfl, closure, params⟩ := value
    obtain ⟨root, s₀, fresh, run⟩ := Run.bind_eq_ok_iff.1 run
    obtain ⟨outcome, s₁, unreadable, definition⟩ := Run.bind_eq_ok_iff.1 run
    have calls : Calls root s₀ [.sym ⟨8, "f"⟩] s :=
      (Calls.none.next (.rep unreadable)).next (.eval definition)
    obtain ⟨c, hclosure, hparams⟩ := Option.map_eq_some_iff.1 closure
    have function : InReach root [.sym ⟨8, "f"⟩] s ⟨8, "f"⟩ := .returned List.mem_cons_self .refl
    have parameter : InReach root [.sym ⟨8, "f"⟩] s ⟨9, "x"⟩ := by
      refine .closure (.tail (.single (b := .cons 11) (?_ : _ ∈ s.parts (.expr 0))) ?_)
      · simp [Store.parts_expr hclosure, hparams]
      · simp [Store.parts_cons params]
    obtain ⟨-, -, -, owned, identity, -⟩ := names_decide_identity fresh calls
    exact ⟨root, s₀, _, _, s, fresh, calls, function, parameter, owned _ function,
      fun y hy hname => (identity y _ hy parameter).2 hname⟩
  · cases value
  · cases value

end PocketLisp
