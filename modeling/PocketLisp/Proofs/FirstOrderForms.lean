import PocketLisp.Proofs.StoreSimulation

/-!
# Forms that make no functions

A form that mentions neither `lambda` nor `defun` can only quote, choose and apply the functions
that are there already. If there are no closures among these, its evaluation goes no deeper than the
form nests, and it comes to an end, whatever is in the store. No closure is in its value, and none
is made on the way.
-/
namespace PocketLisp

namespace Sexp
variable {α : Type}

def nesting : Sexp α → Nat
  | .atom _ => 0
  | .cons a d => max (nesting a + 1) (nesting d)

def pairs : Sexp α → Nat
  | .atom _ => 0
  | .cons a d => pairs a + pairs d + 1

theorem length_spine_le (t : Sexp α) : t.spine.1.length ≤ t.pairs := by
  induction t with
  | atom a => exact Nat.le_refl 0
  | cons a d _ ih =>
    simp only [spine, pairs, List.length_cons]
    omega

end Sexp

def PureAtom.NoClosure : PureAtom → Prop
  | .closure .. => False
  | _ => True

def PureAtom.FirstOrder : PureAtom → Prop
  | .closure .. => False
  | .sym name => name ≠ "lambda" ∧ name ≠ "defun"
  | _ => True

theorem noClosure_of_firstOrder {x : PureValue} (h : x.All PureAtom.FirstOrder) :
    x.All PureAtom.NoClosure := by
  refine h.imp fun a ha => ?_
  cases a with
  | closure _ _ _ => exact absurd ha id
  | _ => trivial

/-- What is reached from a form by cdrs: a form as small as that, in which no functions are made. -/
structure Tail (x z : PureValue) : Prop where
  firstOrder : z.All PureAtom.FirstOrder
  pairs : z.pairs ≤ x.pairs
  nesting : z.nesting ≤ x.nesting

/-- A form within a form, which nests less deep. -/
structure Part (x z : PureValue) : Prop where
  firstOrder : z.All PureAtom.FirstOrder
  pairs : z.pairs ≤ x.pairs
  nesting : z.nesting < x.nesting

section parts

variable {p : PureAtom → Prop} {x y z : PureValue}

theorem PureValue.all_car (nil : p .nil) (h : x.All p) : x.car.All p := by
  cases x with
  | atom _ => exact nil
  | cons _ _ => exact h.1

theorem PureValue.all_cdr (nil : p .nil) (h : x.All p) : x.cdr.All p := by
  cases x with
  | atom _ => exact nil
  | cons _ _ => exact h.2

theorem Builtin.result_noClosure (h : x.All PureAtom.NoClosure) (b : Builtin) :
    (b.result x).All PureAtom.NoClosure := by
  have car := PureValue.all_car trivial h
  cases b with
  | car => exact PureValue.all_car trivial car
  | cdr => exact PureValue.all_cdr trivial car
  | cons => exact ⟨car, PureValue.all_car trivial (PureValue.all_cdr trivial h)⟩

theorem Tail.cdr (h : Tail x z) : Tail x z.cdr := by
  obtain ⟨firstOrder, pairs, nesting⟩ := h
  cases z with
  | atom _ => exact ⟨trivial, Nat.zero_le _, Nat.zero_le _⟩
  | cons a d =>
    simp only [Sexp.pairs, Sexp.nesting] at pairs nesting
    exact ⟨firstOrder.2, by show d.pairs ≤ _; omega, by show d.nesting ≤ _; omega⟩

theorem Tail.car (h : Tail x z) (list : 0 < x.nesting) : Part x z.car := by
  obtain ⟨firstOrder, pairs, nesting⟩ := h
  cases z with
  | atom _ => exact ⟨trivial, Nat.zero_le _, list⟩
  | cons a d =>
    simp only [Sexp.pairs, Sexp.nesting] at pairs nesting
    exact ⟨firstOrder.1, by show a.pairs ≤ _; omega, by show a.nesting < _; omega⟩

theorem Tail.spine (h : Tail x z) : ∀ y ∈ z.spine.1, Part x y := by
  induction z with
  | atom _ => exact List.forall_mem_nil _
  | cons a d _ ih =>
    have list : 0 < x.nesting := by
      have := h.nesting
      simp only [Sexp.nesting] at this
      omega
    exact List.forall_mem_cons.2 ⟨h.car list, ih h.cdr⟩

theorem nesting_cons_pos (op args : PureValue) : 0 < (Sexp.cons op args).nesting := by
  simp only [Sexp.nesting]
  omega

/-- The head of a form is a part of it, and the list behind it is reached by a cdr. -/
theorem part_and_tail {op args : PureValue} (h : (Sexp.cons op args).All PureAtom.FirstOrder) :
    Part (.cons op args) op ∧ Tail (.cons op args) args :=
  have whole : Tail (.cons op args) (.cons op args) := ⟨h, Nat.le_refl _, Nat.le_refl _⟩
  ⟨whole.car (nesting_cons_pos op args), whole.cdr⟩

/-- No functions are made where neither name is the head. -/
theorem keywordOf_firstOrder {op : PureValue} (h : op.All PureAtom.FirstOrder) {k : Keyword}
    (keyword : keywordOf op = some k) : k = .quote ∨ k = .conditional := by
  cases op with
  | cons _ _ => cases keyword
  | atom a =>
    cases a with
    | sym name =>
      obtain ⟨notLambda, notDefun⟩ := h
      obtain ⟨before, after, split, -⟩ := List.lookup_eq_some_iff.1 keyword
      have listed : (name, k) ∈ keywords := split ▸ by simp
      simp only [keywords, List.mem_cons, Prod.mk.injEq, notLambda, notDefun, false_and,
        List.not_mem_nil, or_false] at listed
      exact listed.imp And.right And.right
    | _ => cases keyword

end parts

/-- Under all bounds from the given ones on the computations end alike, with a value that has no
closures in it, and add nothing but data to the store. -/
def EndsPlainly (table global width depth : Nat) (s : Store) (x : Nat → Nat → Run Value) : Prop :=
  ∃ v y s', (∀ w d, width ≤ w → depth ≤ d → x w d s = .ok v s') ∧ AddsData s s' ∧
    Shows table global s' v (.value y) ∧ y.All PureAtom.NoClosure

section computations

variable {table global width depth : Nat} {s s₁ : Store} {x x' : Nat → Nat → Run Value}

namespace EndsPlainly

theorem of_value {v : Value} {y : PureValue} (shows : Shows table global s v (.value y))
    (plain : y.All PureAtom.NoClosure) :
    EndsPlainly table global width depth s fun _ _ => pure v :=
  ⟨v, y, s, fun _ _ _ _ => rfl, .refl s, shows, plain⟩

theorem of_error (s : Store) (message : String) :
    EndsPlainly table global width depth s fun _ _ => Run.make fun s => s.error message :=
  ⟨_, _, _, fun _ _ _ _ => rfl, (s.allocates_error message).addsData, .error, trivial⟩

/-- A computation that adds data and then goes on with another one. -/
theorem after (adds : AddsData s s₁) (h : EndsPlainly table global width depth s₁ x')
    (same : ∀ w d, width ≤ w → depth ≤ d → x w d s = x' w d s₁) :
    EndsPlainly table global width depth s x := by
  obtain ⟨v, y, s', ends, adds', shows, plain⟩ := h
  exact ⟨v, y, s', fun w d hw hd => (same w d hw hd).trans (ends w d hw hd), adds.trans adds',
    shows, plain⟩

theorem bind {k : Value → Nat → Nat → Run Value} (h : EndsPlainly table global width depth s x)
    (next : ∀ v y s₁, AddsData s s₁ → Shows table global s₁ v (.value y) →
      y.All PureAtom.NoClosure → EndsPlainly table global width depth s₁ (k v)) :
    EndsPlainly table global width depth s fun w d => x w d >>= fun v => k v w d := by
  obtain ⟨v, y, s₁, ends, adds, shows, plain⟩ := h
  exact (next v y s₁ adds shows plain).after adds fun w d hw hd =>
    Run.bind_apply_of_ok (ends w d hw hd) _

theorem deeper (h : EndsPlainly table global width depth s x)
    (same : ∀ w d, x' w (d + 1) s = x w d s) :
    EndsPlainly table global width (depth + 1) s x' := by
  obtain ⟨v, y, s', ends, adds, shows, plain⟩ := h
  refine ⟨v, y, s', fun w d hw hd => ?_, adds, shows, plain⟩
  obtain ⟨d, rfl⟩ := Nat.exists_eq_add_of_le' (Nat.le_trans (Nat.le_add_left 1 depth) hd)
  exact (same w d).trans (ends w d hw (Nat.le_of_succ_le_succ hd))

end EndsPlainly

theorem evalList_cell {eval : Value → Run Value} {fuel a : Nat} {done : List Value}
    {form rest : Value} (cell : s.cells[a]? = some ⟨form, rest⟩) (enough : 0 < fuel) :
    evalList eval fuel done (.cons a) s = (eval form >>= fun v =>
      if v.isError then pure v
      else Run.look (·.cdr (.cons a)) >>= evalList eval (fuel - 1) (v :: done)) s := by
  obtain ⟨fuel, rfl⟩ := Nat.exists_eq_add_of_le' enough
  simp only [evalList, Run.look_bind_apply, Store.cell?, cell, Nat.add_sub_cancel]

/-- Arguments are evaluated one after the other, up to the first error. -/
theorem evalList_endsPlainly {g : Globals} {eval : Nat → Nat → Value → Run Value} {z : PureValue}
    {fuel : Nat → Nat} {done : List Value} {ys : List PureValue} {forms : Value}
    (hg : Represents table global s g)
    (each : ∀ y ∈ z.spine.1, ∀ s₁ form, AddsData s s₁ → Shows table global s₁ form (.value y) →
      EndsPlainly table global width depth s₁ fun w d => eval w d form)
    (enough : ∀ w, width ≤ w → z.spine.1.length < fuel w)
    (hdone : List.Forall₂ (fun v y => Shows table global s v (.value y)) done ys)
    (plain : ∀ y ∈ ys, y.All PureAtom.NoClosure)
    (shows : Shows table global s forms (.value z)) :
    EndsPlainly table global width depth s fun w d => evalList (eval w d) (fuel w) done forms := by
  induction z generalizing s fuel done ys forms with
  | atom a =>
    obtain ⟨-, -, list⟩ := hg.ofList (List.rel_reverse hdone)
    refine ⟨_, _, _, fun w d hw _ => ?_, (s.ofList_chain done.reverse).1.addsData, list,
      Sexp.all_ofList trivial fun y hy => plain y (List.mem_reverse.1 hy)⟩
    obtain ⟨n, hn⟩ := Nat.exists_eq_add_of_lt (enough w hw)
    simp only [hn, evalList, Run.look_bind_apply, shows.cell?_of_atom, Run.make_apply]
  | cons y z _ ih =>
    obtain ⟨first, others⟩ := List.forall_mem_cons.1 each
    cases shows with
    | @cons a form rest _ _ inner cell car cdr =>
      refine ((first s form (.refl s) car).bind (k := fun v w d => if v.isError then pure v
          else Run.look (·.cdr (.cons a)) >>= evalList (eval w d) (fuel w - 1) (v :: done))
        fun v x s₁ adds showsV plainV => ?_).after (.refl s) fun w d hw _ => ?_
      · by_cases error : v.isError = true
        · simp only [error, ↓reduceIte]
          exact .of_value showsV plainV
        have grow := adds.growsAt global
        have rest' : s₁.cdr (.cons a) = rest := by
          simp only [Store.cdr, Store.cell?, adds.cells a _ cell]
        have later : EndsPlainly table global width depth s₁ fun w d =>
            evalList (eval w d) (fuel w - 1) (v :: done) rest := by
          refine ih (hg.addsData adds)
            (fun y hy t form adds' => others y hy t form (adds.trans adds')) (fun w hw => ?_)
            (.cons showsV (hdone.imp fun _ _ shows => shows.grow grow))
            (List.forall_mem_cons.2 ⟨plainV, plain⟩) (cdr.grow grow)
          exact Nat.lt_sub_of_add_lt (enough w hw)
        exact later.after (.refl s₁) fun w d _ _ => by
          simp only [error, Bool.false_eq_true, ↓reduceIte, Run.look_bind_apply, rest']
      · exact evalList_cell cell (Nat.zero_lt_of_lt (enough w hw))

/-- Values without closures are applied at once. -/
theorem applyStep_endsPlainly {g : Globals} {answer : Nat → Nat → Request → Run Value}
    {f args : Value} {y z : PureValue} (hg : Represents table global s g)
    (showsF : Shows table global s f (.value y)) (plainF : y.All PureAtom.NoClosure)
    (showsArgs : Shows table global s args (.value z)) (plainArgs : z.All PureAtom.NoClosure) :
    EndsPlainly table global width depth s fun w d => applyStep noHost w (answer w d) f args := by
  by_cases error : f.isError = true
  · exact (EndsPlainly.of_value showsF plainF).after (.refl s) fun w d _ _ =>
      applyStep_headError w _ error args s
  rw [Bool.not_eq_true] at error
  by_cases argsError : args.isError = true
  · exact (EndsPlainly.of_value showsArgs plainArgs).after (.refl s) fun w d _ _ =>
      applyStep_argsError w _ error argsError s
  rw [Bool.not_eq_true] at argsError
  by_cases builtin : ∃ serial b, f = .subr serial (Builtin.procedure b)
  · obtain ⟨serial, b, rfl⟩ := builtin
    obtain ⟨-, -, result⟩ := hg.call showsArgs b
    refine ⟨_, _, _, fun w d _ _ => ?_, (s.allocates_call b.procedure args).addsData, result,
      b.result_noClosure plainArgs⟩
    simp only [applyStep, error, argsError]
    exact callStep_apply _ _ _ _
  · refine (EndsPlainly.of_error s _).after (.refl s) fun w d _ _ =>
      applyStep_other w _ error argsError (fun serial procedure e => ?_) fun k e => ?_
    · subst e
      cases showsF with
      | @subr _ b => exact builtin ⟨serial, b, rfl⟩
    · subst e
      cases showsF
      exact plainF

section form

variable {g : Globals} {env : Env} {x : PureValue}
  (parts : ∀ z, Part x z → ∀ s₁ v, AddsData s s₁ → Shows table global s₁ v (.value z) →
    EndsPlainly table global width depth s₁ fun w d => run noHost w d (.eval v env))
include parts

theorem evalIf_endsPlainly {args : Value} {z : PureValue} (adds : AddsData s s₁)
    (list : 0 < x.nesting) (tail : Tail x z) (shows : Shows table global s₁ args (.value z)) :
    EndsPlainly table global width depth s₁ fun w d => evalIf (run noHost w d) args env := by
  refine ((parts z.car (tail.car list) s₁ (s₁.car args) adds shows.car).bind
    (k := fun v w d => if v.isError then pure v
      else Run.look (·.branch v args) >>= fun form => run noHost w d (.eval form env))
    fun v y s₂ adds' showsV plainV => ?_).after (.refl s₁) fun _ _ _ _ => rfl
  by_cases error : v.isError = true
  · simp only [error, ↓reduceIte]
    exact .of_value showsV plainV
  · have showsForm := showsV.branch (shows.grow (adds'.growsAt global))
    have part : Part x (branchOf y z) := by
      unfold branchOf
      split
      · exact tail.cdr.cdr.car list
      · exact tail.cdr.car list
    refine (parts _ part s₂ _ (adds.trans adds') showsForm).after (.refl s₂) fun w d _ _ => ?_
    simp only [error, Bool.false_eq_true, ↓reduceIte, Run.look_bind_apply]

theorem evalApplication_endsPlainly {op args : Value} {y z : PureValue} (adds : AddsData s s₁)
    (hg : Represents table global s₁ g) (head : Part x y) (tail : Tail x z)
    (enough : z.pairs < width) (showsOp : Shows table global s₁ op (.value y))
    (showsArgs : Shows table global s₁ args (.value z)) :
    EndsPlainly table global width depth s₁ fun w d =>
      evalApplication noHost w (run noHost w d) op args env := by
  refine (parts y head s₁ op adds showsOp).bind fun f u s₂ adds₂ showsF plainF => ?_
  have hg₂ := hg.addsData adds₂
  have arguments : EndsPlainly table global width depth s₂ fun w d =>
      evalList (fun form => run noHost w d (.eval form env)) w [] args := by
    refine evalList_endsPlainly hg₂ (fun y hy s₃ form adds₃ shows => ?_) (fun w hw => ?_) .nil
      (List.forall_mem_nil _) (showsArgs.grow (adds₂.growsAt global))
    · exact parts y (tail.spine y hy) s₃ form ((adds.trans adds₂).trans adds₃) shows
    · have := z.length_spine_le
      omega
  refine arguments.bind fun values xs s₃ adds₃ showsValues plainValues => ?_
  exact applyStep_endsPlainly (hg₂.addsData adds₃) (showsF.grow (adds₃.growsAt global)) plainF
    showsValues plainValues

end form

theorem evalStep_symbol_endsPlainly {g : Globals} {env : Env} {sym : Symbol}
    {answer : Nat → Nat → Request → Run Value} (hg : Represents table global s g)
    (bound : ∀ name x, g.lookup name = some x → x.All PureAtom.NoClosure)
    (henv : Holds table global s env []) (own : s.findSymbol? table sym.name = some sym) :
    EndsPlainly table global width depth s fun w d =>
      evalStep noHost w (answer w d) (.sym sym) env := by
  have found := hg.findPair?_rel henv own
  generalize hx : lookup [] g sym.name = x at found
  generalize hpair : s.findPair? env.frames (.sym sym) = pair at found
  cases found with
  | @some pair x shows =>
    refine (EndsPlainly.of_value shows (bound _ x hx)).after (.refl s) fun w d _ _ => ?_
    rw [evalStep_symbol, hpair]
    rfl
  | none =>
    refine (EndsPlainly.of_error s (sym.name ++ " has no value")).after (.refl s) fun w d _ _ => ?_
    rw [evalStep_symbol, hpair]
    rfl

/-- A form that makes no functions is evaluated by means of its parts. -/
theorem evalStep_endsPlainly {g : Globals} {env : Env} {form : Value} {x : PureValue}
    (hg : Represents table global s g)
    (bound : ∀ name x, g.lookup name = some x → x.All PureAtom.NoClosure)
    (henv : Holds table global s env []) (shows : Shows table global s form (.value x))
    (firstOrder : x.All PureAtom.FirstOrder) (enough : x.pairs < width)
    (parts : ∀ z, Part x z → ∀ s₁ v, AddsData s s₁ → Shows table global s₁ v (.value z) →
      EndsPlainly table global width depth s₁ fun w d => run noHost w d (.eval v env)) :
    EndsPlainly table global width depth s fun w d =>
      evalStep noHost w (run noHost w d) form env := by
  cases x with
  | atom a =>
    by_cases symbol : ∃ sym, form = .sym sym
    · obtain ⟨sym, rfl⟩ := symbol
      cases shows with
      | sym own => exact evalStep_symbol_endsPlainly hg bound henv own
    · exact (EndsPlainly.of_value shows (noClosure_of_firstOrder firstOrder)).after (.refl s)
        fun w d _ _ => evalStep_self w _ (fun sym e => symbol ⟨sym, e⟩) shows.cell?_of_atom
  | cons op args =>
    obtain ⟨a, opV, argsV, s₁, rfl, cell, head, -, hg₁, -, showsOp, showsArgs⟩ :=
      hg.exists_head henv shows
    have adds := s.addsData_keyword env.table opV
    rw [head] at adds
    have list := nesting_cons_pos op args
    obtain ⟨part, tail⟩ := part_and_tail firstOrder
    generalize keyword : keywordOf op = k at head
    cases k with
    | none =>
      have few : args.pairs < width := Nat.lt_of_le_of_lt tail.pairs enough
      exact (evalApplication_endsPlainly parts adds hg₁ part tail few showsOp showsArgs).after adds
        fun w d _ _ => by rw [evalStep_cell w _ cell, evalCell_apply, head]
    | some k =>
      cases k with
      | quote =>
        have plain := noClosure_of_firstOrder (tail.car list).firstOrder
        exact (EndsPlainly.of_value showsArgs.car plain).after adds fun w d _ _ => by
          rw [evalStep_cell w _ cell, evalCell_apply, head]
          rfl
      | conditional =>
        exact (evalIf_endsPlainly parts adds list tail showsArgs).after adds fun w d _ _ => by
          rw [evalStep_cell w _ cell, evalCell_apply, head]
      | lambda => exact absurd (keywordOf_firstOrder firstOrder.1 keyword) (by decide)
      | defun => exact absurd (keywordOf_firstOrder firstOrder.1 keyword) (by decide)

/-- Requests nest no deeper than the form does. -/
theorem eval_endsPlainly {g : Globals} {env : Env}
    (bound : ∀ name x, g.lookup name = some x → x.All PureAtom.NoClosure)
    {n : Nat} {form : Value} {x : PureValue} (hg : Represents table global s g)
    (henv : Holds table global s env []) (shows : Shows table global s form (.value x))
    (firstOrder : x.All PureAtom.FirstOrder) (enough : x.pairs < width) (deep : x.nesting ≤ n) :
    EndsPlainly table global width (n + 1) s fun w d => run noHost w d (.eval form env) := by
  induction n generalizing s form x with
  | zero =>
    refine (evalStep_endsPlainly hg bound henv shows firstOrder enough fun z part => ?_).deeper
      fun _ _ => rfl
    exact absurd part.nesting (Nat.not_lt.2 (Nat.le_trans deep (Nat.zero_le _)))
  | succ n ih =>
    refine (evalStep_endsPlainly hg bound henv shows firstOrder enough
      fun z part s₁ v adds showsV => ?_).deeper fun _ _ => rfl
    exact ih (hg.addsData adds) (henv.grow (adds.growsAt global)) showsV part.firstOrder
      (Nat.lt_of_le_of_lt part.pairs enough)
      (Nat.le_of_lt_succ (Nat.lt_of_lt_of_le part.nesting deep))

end computations

end PocketLisp
