import PocketLisp.Proofs.LineValues

/-!
# Programs that correspond name by name

Two programs that differ in their names only are evaluated alike. A correspondence tells which names
stand for one another; it is one to one, and it does not mix up the special forms. Values that
correspond are of one shape, with names that correspond in all places, also in what closures hold.
Names without a counterpart must not come up in either program, but the globals may bind them.
-/
namespace PocketLisp

/-- Which names of two programs stand for one another. -/
structure Correspondence where
  rel : String → String → Prop
  functional : ∀ {n m m' : String}, rel n m → rel n m' → m = m'
  injective : ∀ {n n' m : String}, rel n m → rel n' m → n = n'
  special : ∀ {n m : String}, rel n m → keywords.lookup n = keywords.lookup m

def Correspondence.symm (ρ : Correspondence) : Correspondence where
  rel n m := ρ.rel m n
  functional := ρ.injective
  injective := ρ.functional
  special h := (ρ.special h).symm

theorem Correspondence.beq_eq (ρ : Correspondence) {n n' m m' : String} (h : ρ.rel n m)
    (h' : ρ.rel n' m') : (n == n') = (m == m') := by
  rw [Bool.eq_iff_iff, beq_iff_eq, beq_iff_eq]
  constructor
  · rintro rfl
    exact ρ.functional h h'
  · rintro rfl
    exact ρ.injective h h'

/-- `Matches ρ v w`: the one is the other with the names that stand for its names. Errors match
nothing. -/
inductive Matches (ρ : Correspondence) : View → View → Prop where
  | nil : Matches ρ (.value .nil) (.value .nil)
  | num (n : Fixnum) : Matches ρ (.value (.atom (.num n))) (.value (.atom (.num n)))
  | sym {n m : String} (names : ρ.rel n m) :
      Matches ρ (.value (.atom (.sym n))) (.value (.atom (.sym m)))
  | builtin (b : Builtin) : Matches ρ (.value (.atom (.builtin b))) (.value (.atom (.builtin b)))
  | closure {params body params' body' : PureValue} {locals locals' : Locals}
      (parameters : Matches ρ (.value params) (.value params'))
      (forms : Matches ρ (.value body) (.value body'))
      (captured : Matches ρ (.frames locals) (.frames locals')) :
      Matches ρ (.value (.atom (.closure params body locals)))
        (.value (.atom (.closure params' body' locals')))
  | cons {x y x' y' : PureValue} (car : Matches ρ (.value x) (.value x'))
      (cdr : Matches ρ (.value y) (.value y')) :
      Matches ρ (.value (.cons x y)) (.value (.cons x' y'))
  | noBindings : Matches ρ (.bindings []) (.bindings [])
  | bind {n m : String} {x y : PureValue} {bindings bindings' : List (String × PureValue)}
      (names : ρ.rel n m) (value : Matches ρ (.value x) (.value y))
      (others : Matches ρ (.bindings bindings) (.bindings bindings')) :
      Matches ρ (.bindings ((n, x) :: bindings)) (.bindings ((m, y) :: bindings'))
  | noFrames : Matches ρ (.frames []) (.frames [])
  | frame {bindings bindings' : List (String × PureValue)} {locals locals' : Locals}
      (first : Matches ρ (.bindings bindings) (.bindings bindings'))
      (others : Matches ρ (.frames locals) (.frames locals')) :
      Matches ρ (.frames (bindings :: locals)) (.frames (bindings' :: locals'))

/-- Values that match, or one of the two errors of an evaluation, each with what it is about. -/
inductive Alike (ρ : Correspondence) : PureValue → PureValue → Prop where
  | value {x y : PureValue} (values : Matches ρ (.value x) (.value y)) : Alike ρ x y
  | noValue {n m : String} (names : ρ.rel n m) :
      Alike ρ (.error (n ++ " has no value")) (.error (m ++ " has no value"))
  | noFunction {x y : PureValue} (operands : Matches ρ (.value x) (.value y))
      (builtin : ∀ b, x ≠ .atom (.builtin b))
      (closure : ∀ params body locals, x ≠ .atom (.closure params body locals)) :
      Alike ρ (.error (x.written pureSpelling ++ " is not function"))
        (.error (y.written pureSpelling ++ " is not function"))

/-- Globals that give values that match to names that stand for one another. -/
def GlobalsMatch (ρ : Correspondence) (g h : Globals) : Prop :=
  ∀ n m, ρ.rel n m →
    Option.Rel (fun x y => Matches ρ (.value x) (.value y)) (g.lookup n) (h.lookup m)

inductive GoalsMatch (ρ : Correspondence) : PureGoal → PureGoal → Prop where
  | eval {x y : PureValue} {locals locals' : Locals} (forms : Matches ρ (.value x) (.value y))
      (scope : Matches ρ (.frames locals) (.frames locals')) :
      GoalsMatch ρ (.eval x locals) (.eval y locals')
  | args {x y : PureValue} {locals locals' : Locals} (forms : Matches ρ (.value x) (.value y))
      (scope : Matches ρ (.frames locals) (.frames locals')) :
      GoalsMatch ρ (.args x locals) (.args y locals')
  | body {x y last last' : PureValue} {locals locals' : Locals} (lasts : Alike ρ last last')
      (forms : Matches ρ (.value x) (.value y))
      (scope : Matches ρ (.frames locals) (.frames locals')) :
      GoalsMatch ρ (.body last x locals) (.body last' y locals')
  | apply {f f' args args' : PureValue} (functions : Alike ρ f f') (values : Alike ρ args args') :
      GoalsMatch ρ (.apply f args) (.apply f' args')

def Atom.rename (r : String → String) : Atom → Atom
  | .sym n => .sym (r n)
  | a => a

theorem Sexp.map_rename_id (d : Datum) : d.map (Atom.rename id) = d := by
  induction d with
  | atom a => cases a <;> rfl
  | cons a d ihCar ihCdr => rw [map, ihCar, ihCdr]

section matching

variable {ρ : Correspondence}

namespace Matches

theorem symm {v w : View} (h : Matches ρ v w) : Matches ρ.symm w v := by
  induction h with
  | nil => exact .nil
  | num n => exact .num n
  | sym names => exact .sym names
  | builtin b => exact .builtin b
  | closure _ _ _ ihParams ihBody ihLocals => exact .closure ihParams ihBody ihLocals
  | cons _ _ ihCar ihCdr => exact .cons ihCar ihCdr
  | noBindings => exact .noBindings
  | bind names _ _ ihValue ihOthers => exact .bind names ihValue ihOthers
  | noFrames => exact .noFrames
  | frame _ _ ihFirst ihOthers => exact .frame ihFirst ihOthers

variable {x y : PureValue} (h : Matches ρ (.value x) (.value y))
include h

theorem not_isError : x.isError = false := by
  cases h <;> rfl

theorem isNil_eq : x.isNil = y.isNil := by
  cases h <;> rfl

theorem car : Matches ρ (.value x.car) (.value y.car) := by
  cases h with
  | cons car cdr => exact car
  | _ => exact .nil

theorem cdr : Matches ρ (.value x.cdr) (.value y.cdr) := by
  cases h with
  | cons car cdr => exact cdr
  | _ => exact .nil

theorem keywordOf_eq : keywordOf x = keywordOf y := by
  cases h with
  | sym names => exact ρ.special names
  | _ => rfl

theorem spine : List.Forall₂ (fun x y => Matches ρ (.value x) (.value y)) x.spine.1 y.spine.1 := by
  induction x generalizing y with
  | atom a => cases h <;> exact .nil
  | cons x x' _ ih =>
    cases h with
    | cons car cdr => exact .cons car (ih cdr)

end Matches

theorem Matches.branch {x y args args' : PureValue} (conditions : Matches ρ (.value x) (.value y))
    (forms : Matches ρ (.value args) (.value args')) :
    Matches ρ (.value (branchOf x args)) (.value (branchOf y args')) := by
  rw [branchOf, branchOf, conditions.isNil_eq]
  split
  · exact forms.cdr.cdr.car
  · exact forms.cdr.car

theorem Matches.result {args args' : PureValue} (h : Matches ρ (.value args) (.value args'))
    (b : Builtin) : Matches ρ (.value (b.result args)) (.value (b.result args')) := by
  cases b with
  | car => exact h.car.car
  | cdr => exact h.car.cdr
  | cons => exact .cons h.car h.cdr.car

theorem Matches.lookup_binding {bindings bindings' : List (String × PureValue)} {n m : String}
    (h : Matches ρ (.bindings bindings) (.bindings bindings')) (names : ρ.rel n m) :
    Option.Rel (fun x y => Matches ρ (.value x) (.value y)) (bindings.lookup n)
      (bindings'.lookup m) := by
  induction bindings generalizing bindings' with
  | nil =>
    cases h
    exact .none
  | cons b bindings ih =>
    cases h with
    | bind names' value others =>
      rw [List.lookup_cons, List.lookup_cons, ρ.beq_eq names names']
      split
      · exact .some value
      · exact ih others

theorem Matches.lookup {locals locals' : Locals} {g g' : Globals} {n m : String}
    (h : Matches ρ (.frames locals) (.frames locals')) (globals : GlobalsMatch ρ g g')
    (names : ρ.rel n m) : Option.Rel (fun x y => Matches ρ (.value x) (.value y))
      (PocketLisp.lookup locals g n) (PocketLisp.lookup locals' g' m) := by
  induction locals generalizing locals' with
  | nil =>
    cases h
    exact globals n m names
  | cons bindings locals ih =>
    cases h with
    | frame first others =>
      rw [lookup_cons, lookup_cons]
      exact rel_or (first.lookup_binding names) (ih others)

theorem Matches.bindParams {params params' args args' : PureValue}
    (parameters : Matches ρ (.value params) (.value params'))
    (arguments : Matches ρ (.value args) (.value args')) :
    Matches ρ (.bindings (bindParams params args)) (.bindings (bindParams params' args')) := by
  rw [PocketLisp.bindParams, PocketLisp.bindParams]
  have names := parameters.spine
  have values := arguments.spine
  generalize params.spine.1 = ns, params'.spine.1 = ms at names
  generalize args.spine.1 = xs, args'.spine.1 = ys at values
  induction names generalizing xs ys with
  | nil => exact .noBindings
  | cons name _ ih =>
    cases values with
    | nil => exact .noBindings
    | cons value values =>
      have others := ih _ _ values
      cases name with
      | sym names => exact .bind names value others
      | _ => exact others

/-- A definition keeps globals in step, since no other name stands for the one that is defined. -/
theorem GlobalsMatch.define {g g' : Globals} {name name' f f' : PureValue}
    (h : GlobalsMatch ρ g g') (names : Matches ρ (.value name) (.value name'))
    (functions : Matches ρ (.value f) (.value f')) :
    GlobalsMatch ρ (define g name f) (define g' name' f') := by
  cases names with
  | @sym k k' keys =>
    intro n m hnm
    have same : n = k ↔ m = k' := by simpa using ρ.beq_eq hnm keys
    simp only [PocketLisp.define]
    by_cases hn : n = k
    · rw [hn, same.1 hn, Finmap.lookup_insert, Finmap.lookup_insert]
      exact .some functions
    · rw [Finmap.lookup_insert_of_ne _ hn, Finmap.lookup_insert_of_ne _ (mt same.2 hn)]
      exact h n m hnm
  | _ => exact h

theorem GlobalsMatch.symm {g g' : Globals} (h : GlobalsMatch ρ g g') :
    GlobalsMatch ρ.symm g' g := by
  intro n m names
  have rel := h m n names
  generalize g.lookup m = o, g'.lookup n = o' at rel
  cases rel with
  | some value => exact .some value.symm
  | none => exact .none

/-- The core procedures match if no other names stand for their names. -/
theorem GlobalsMatch.core (fixed : ∀ n m, ρ.rel n m → ∀ b ∈ coreBindings, n = b.1 ↔ m = b.1) :
    GlobalsMatch ρ (.ofBindings coreBindings) (.ofBindings coreBindings) := by
  intro n m names
  have same : ∀ b ∈ coreBindings, (n == b.1) = (m == b.1) := fun b hb => by
    rw [Bool.eq_iff_iff, beq_iff_eq, beq_iff_eq]
    exact fixed n m names b hb
  rw [Globals.lookup_ofBindings, Globals.lookup_ofBindings]
  simp only [coreBindings, List.forall_mem_cons] at same
  obtain ⟨t, cons, cdr, car, -⟩ := same
  simp only [coreBindings, List.lookup_cons, List.lookup_nil, t, cons, cdr, car]
  split
  · next found =>
    have hm := beq_iff_eq.1 found
    have hn := beq_iff_eq.1 (t.trans found)
    exact .some (.sym (by simpa only [hn, hm] using names))
  · repeat' split
    · exact .some (.builtin .cons)
    · exact .some (.builtin .cdr)
    · exact .some (.builtin .car)
    · exact .none

namespace Alike
variable {x y : PureValue} (h : Alike ρ x y)
include h

theorem isError_eq : x.isError = y.isError := by
  cases h with
  | value values => rw [values.not_isError, values.symm.not_isError]
  | _ => rfl

theorem matches_of_not_isError (noError : x.isError = false) : Matches ρ (.value x) (.value y) := by
  cases h with
  | value values => exact values
  | _ => cases noError

end Alike

theorem Alike.attach {x y rest rest' : PureValue} (first : Matches ρ (.value x) (.value y))
    (others : Alike ρ rest rest') : Alike ρ (attach x rest) (attach y rest') := by
  rw [PocketLisp.attach, PocketLisp.attach, ← others.isError_eq]
  split
  · exact others
  · next noError =>
    exact .value (.cons first (others.matches_of_not_isError (Bool.eq_false_iff.2 noError)))

/-- A goal that matches a form with a head is such a form. -/
theorem GoalsMatch.form {op args : PureValue} {locals : Locals} {goal : PureGoal}
    (h : GoalsMatch ρ (.eval (.cons op args) locals) goal) :
    ∃ op' args' locals', goal = .eval (.cons op' args') locals' ∧
      keywordOf op = keywordOf op' ∧ Matches ρ (.value op) (.value op') ∧
      Matches ρ (.value args) (.value args') ∧ Matches ρ (.frames locals) (.frames locals') := by
  cases h with
  | eval forms scope =>
    cases forms with
    | cons ops args => exact ⟨_, _, _, rfl, ops.keywordOf_eq, ops, args, scope⟩

/-- What is made of a goal is made of each goal that matches, with what corresponds as the value and
globals that match again. -/
def Transfers (ρ : Correspondence) (goal : PureGoal) (g : Globals) (x : PureValue) (g₁ : Globals) :
    Prop :=
  ∀ {goal' : PureGoal} {h : Globals}, GoalsMatch ρ goal goal' → GlobalsMatch ρ g h →
    ∃ y h₁, Evaluates goal' h y h₁ ∧ Alike ρ x y ∧ GlobalsMatch ρ g₁ h₁

namespace Transfers
variable {op args f x y z w : PureValue} {locals : Locals} {g g₁ g₂ g₃ : Globals}

theorem bound {name : String} (found : PocketLisp.lookup locals g name = some x) :
    Transfers ρ (.eval (.atom (.sym name)) locals) g x g := by
  intro goal' h goals globals
  cases goals with
  | eval forms scope =>
    cases forms with
    | sym names =>
      have rel := scope.lookup globals names
      rw [found] at rel
      generalize hfound : PocketLisp.lookup _ h _ = o at rel
      cases rel with
      | some value => exact ⟨_, h, .bound hfound, .value value, globals⟩

theorem unbound {name : String} (missing : PocketLisp.lookup locals g name = none) :
    Transfers ρ (.eval (.atom (.sym name)) locals) g (.error (name ++ " has no value")) g := by
  intro goal' h goals globals
  cases goals with
  | eval forms scope =>
    cases forms with
    | sym names =>
      have rel := scope.lookup globals names
      rw [missing] at rel
      generalize hmissing : PocketLisp.lookup _ h _ = o at rel
      cases rel with
      | none => exact ⟨_, h, .unbound hmissing, .noValue names, globals⟩

theorem conditional (head : keywordOf op = some .conditional) (noError : x.isError = false)
    (test : Transfers ρ (.eval args.car locals) g x g₁)
    (branch : Transfers ρ (.eval (branchOf x args) locals) g₁ y g₂) :
    Transfers ρ (.eval (.cons op args) locals) g y g₂ := by
  intro goal' h goals globals
  obtain ⟨op', args', locals', rfl, same, -, args, scope⟩ := goals.form
  obtain ⟨c, h₁, tested, alike, globals⟩ := test (.eval args.car scope) globals
  have conditions := alike.matches_of_not_isError noError
  have noError' := alike.isError_eq ▸ noError
  obtain ⟨y, h₂, value, alike', globals⟩ := branch (.eval (conditions.branch args) scope) globals
  exact ⟨y, h₂, .conditional (same ▸ head) tested noError' value, alike', globals⟩

theorem application (head : keywordOf op = none)
    (function : Transfers ρ (.eval op locals) g f g₁)
    (arguments : Transfers ρ (.args args locals) g₁ x g₂)
    (result : Transfers ρ (.apply f x) g₂ y g₃) :
    Transfers ρ (.eval (.cons op args) locals) g y g₃ := by
  intro goal' h goals globals
  obtain ⟨op', args', locals', rfl, same, ops, args, scope⟩ := goals.form
  obtain ⟨f, h₁, valueF, functions, globals⟩ := function (.eval ops scope) globals
  obtain ⟨xs, h₂, valueArgs, values, globals⟩ := arguments (.args args scope) globals
  obtain ⟨y, h₃, value, alike, globals⟩ := result (.apply functions values) globals
  exact ⟨y, h₃, .application (same ▸ head) valueF valueArgs value, alike, globals⟩

theorem argsNext (noError : w.isError = false) (value : Transfers ρ (.eval x locals) g w g₁)
    (others : Transfers ρ (.args y locals) g₁ z g₂) :
    Transfers ρ (.args (.cons x y) locals) g (attach w z) g₂ := by
  intro goal' h goals globals
  cases goals with
  | args forms scope =>
    cases forms with
    | cons first rest =>
      obtain ⟨v, h₁, evaluates, alike, globals⟩ := value (.eval first scope) globals
      obtain ⟨vs, h₂, evaluates', values, globals⟩ := others (.args rest scope) globals
      exact ⟨_, h₂, .argsNext evaluates (alike.isError_eq ▸ noError) evaluates',
        values.attach (alike.matches_of_not_isError noError), globals⟩

theorem bodyNext {last : PureValue} (value : Transfers ρ (.eval x locals) g w g₁)
    (others : Transfers ρ (.body w y locals) g₁ z g₂) :
    Transfers ρ (.body last (.cons x y) locals) g z g₂ := by
  intro goal' h goals globals
  cases goals with
  | body lasts forms scope =>
    cases forms with
    | cons first rest =>
      obtain ⟨v, h₁, evaluates, alike, globals⟩ := value (.eval first scope) globals
      obtain ⟨z, h₂, evaluates', alike', globals⟩ := others (.body alike rest scope) globals
      exact ⟨z, h₂, .bodyNext evaluates evaluates', alike', globals⟩

theorem applyClosure {params body : PureValue} (noError : args.isError = false)
    (run : Transfers ρ (.body .nil body (bindParams params args :: locals)) g x g₁) :
    Transfers ρ (.apply (.atom (.closure params body locals)) args) g x g₁ := by
  intro goal' h goals globals
  cases goals with
  | apply functions values =>
    cases functions.matches_of_not_isError rfl with
    | closure parameters forms captured =>
      have bindings := parameters.bindParams (values.matches_of_not_isError noError)
      obtain ⟨y, h₁, value, alike, globals⟩ :=
        run (.body (.value .nil) forms (.frame bindings captured)) globals
      exact ⟨y, h₁, .applyClosure (values.isError_eq ▸ noError) value, alike, globals⟩

theorem applyOther (noError : f.isError = false) (noArgsError : args.isError = false)
    (builtin : ∀ b, f ≠ .atom (.builtin b))
    (closure : ∀ params body locals, f ≠ .atom (.closure params body locals)) :
    Transfers ρ (.apply f args) g (.error (f.written pureSpelling ++ " is not function")) g := by
  intro goal' h goals globals
  cases goals with
  | apply functions values =>
    have operands := functions.matches_of_not_isError noError
    refine ⟨_, h, .applyOther (functions.isError_eq ▸ noError) (values.isError_eq ▸ noArgsError)
      (fun b e => ?_) (fun params body locals e => ?_), .noFunction operands builtin closure,
      globals⟩
    · subst e
      cases operands
      exact builtin _ rfl
    · subst e
      cases operands
      exact closure _ _ _ rfl

end Transfers

/-- Goals that match have values that are alike. -/
theorem Evaluates.matched {goal : PureGoal} {g g₁ : Globals} {x : PureValue}
    (evaluates : Evaluates goal g x g₁) : Transfers ρ goal g x g₁ := by
  induction evaluates with
  | bound found => exact Transfers.bound found
  | unbound missing => exact Transfers.unbound missing
  | self symbol =>
    intro goal' h goals globals
    cases goals with
    | eval forms scope =>
      cases forms with
      | sym names => exact absurd rfl (symbol _)
      | _ => exact ⟨_, h, .self (by simp), .value (by constructor <;> assumption), globals⟩
  | quote head =>
    intro goal' h goals globals
    obtain ⟨op', args', locals', rfl, same, -, args, -⟩ := goals.form
    exact ⟨_, h, .quote (same ▸ head), .value args.car, globals⟩
  | testError head _ error ih =>
    intro goal' h goals globals
    obtain ⟨op', args', locals', rfl, same, -, args, scope⟩ := goals.form
    obtain ⟨y, h₁, test, alike, globals⟩ := ih (.eval args.car scope) globals
    have error' := alike.isError_eq ▸ error
    exact ⟨y, h₁, .testError (same ▸ head) test error', alike, globals⟩
  | conditional head _ noError _ ihTest ihBranch =>
    exact Transfers.conditional head noError ihTest ihBranch
  | lambda head =>
    intro goal' h goals globals
    obtain ⟨op', args', locals', rfl, same, -, args, scope⟩ := goals.form
    have closures := Matches.closure args.car args.cdr scope
    exact ⟨_, h, .lambda (same ▸ head), .value closures, globals⟩
  | defun head =>
    intro goal' h goals globals
    obtain ⟨op', args', locals', rfl, same, -, args, scope⟩ := goals.form
    have closures := Matches.closure args.cdr.car args.cdr.cdr scope
    exact ⟨_, _, .defun (same ▸ head), .value args.car, globals.define args.car closures⟩
  | application head _ _ _ ihFunction ihArguments ihResult =>
    exact Transfers.application head ihFunction ihArguments ihResult
  | argsEnd =>
    intro goal' h goals globals
    cases goals with
    | args forms scope => cases forms <;> exact ⟨_, h, .argsEnd, .value .nil, globals⟩
  | argsError _ error ih =>
    intro goal' h goals globals
    cases goals with
    | args forms scope =>
      cases forms with
      | cons first rest =>
        obtain ⟨y, h₁, value, alike, globals⟩ := ih (.eval first scope) globals
        exact ⟨y, h₁, .argsError value (alike.isError_eq ▸ error), alike, globals⟩
  | argsNext _ noError _ ih ihOthers => exact Transfers.argsNext noError ih ihOthers
  | bodyEnd =>
    intro goal' h goals globals
    cases goals with
    | body lasts forms scope => cases forms <;> exact ⟨_, h, .bodyEnd, lasts, globals⟩
  | bodyNext _ _ ih ihOthers => exact Transfers.bodyNext ih ihOthers
  | applyError error =>
    intro goal' h goals globals
    cases goals with
    | apply functions values =>
      exact ⟨_, h, .applyError (functions.isError_eq ▸ error), functions, globals⟩
  | applyArgsError noError error =>
    intro goal' h goals globals
    cases goals with
    | apply functions values =>
      exact ⟨_, h, .applyArgsError (functions.isError_eq ▸ noError) (values.isError_eq ▸ error),
        values, globals⟩
  | @applyBuiltin b args g noError =>
    intro goal' h goals globals
    cases goals with
    | apply functions values =>
      cases functions.matches_of_not_isError rfl with
      | builtin =>
        have results := (values.matches_of_not_isError noError).result b
        exact ⟨_, h, .applyBuiltin (values.isError_eq ▸ noError), .value results, globals⟩
  | applyClosure noError _ ih => exact Transfers.applyClosure noError ih
  | applyOther noError noArgsError builtin closure =>
    exact Transfers.applyOther noError noArgsError builtin closure

theorem Matches.of_rename {r : String → String} {d : Datum} (errorFree : ErrorFree d)
    (names : ∀ n ∈ mentioned d, ρ.rel n (r n)) :
    Matches ρ (.value (d.map Atom.toPure)) (.value ((d.map (Atom.rename r)).map Atom.toPure)) := by
  induction d with
  | atom a =>
    cases a with
    | nil => exact .nil
    | num n => exact .num n
    | sym n => exact .sym (names n (by simp [mentioned, Atom.names]))
    | error message => exact absurd rfl (errorFree message)
  | cons a d ihCar ihCdr =>
    exact .cons (ihCar errorFree.1 fun n hn => names n (List.mem_append_left _ hn))
      (ihCdr errorFree.2 fun n hn => names n (List.mem_append_right _ hn))

def LinesMatch (ρ : Correspondence) (line line' : String) : Prop :=
  ∃ d rest d' rest', Reads Converts line.toList d rest ∧ Reads Converts line'.toList d' rest' ∧
    Matches ρ (.value (d.map Atom.toPure)) (.value (d'.map Atom.toPure))

theorem LinesMatch.symm {line line' : String} (h : LinesMatch ρ line line') :
    LinesMatch ρ.symm line' line := by
  obtain ⟨d, rest, d', rest', reads, reads', forms⟩ := h
  exact ⟨d', rest', d, rest, reads', reads, forms.symm⟩

theorem LinesEvaluate.matched {lines lines' : List String} {g g₁ h : Globals} {xs : List PureValue}
    (values : LinesEvaluate g lines xs g₁) (same : List.Forall₂ (LinesMatch ρ) lines lines')
    (globals : GlobalsMatch ρ g h) : ∃ ys h₁, LinesEvaluate h lines' ys h₁ ∧
      List.Forall₂ (Alike ρ) xs ys ∧ GlobalsMatch ρ g₁ h₁ := by
  induction values generalizing lines' h with
  | done =>
    cases same
    exact ⟨[], h, .done, .nil, globals⟩
  | line value _ ih =>
    cases same with
    | cons first others =>
      obtain ⟨d, rest, d', rest', reads, reads', forms⟩ := first
      obtain ⟨y, h₁, value', alike, globals⟩ :=
        (reads.lineEvaluates_iff.1 value).matched (.eval forms .noFrames) globals
      obtain ⟨ys, h₂, values, alikes, globals⟩ := ih others globals
      exact ⟨_, h₂, .line (reads'.lineEvaluates_iff.2 value') values, .cons alike alikes, globals⟩

end matching

end PocketLisp
