import PocketLisp.Proofs.AcyclicStores

/-!
# The order of an application

The head of an application is evaluated first and then its arguments, one after the other up to the
first error, whatever procedures the host has. The list of the arguments is walked as it is at each
moment, so a procedure that changes its cells changes which forms come up. Where the evaluations
leave these cells alone, the forms are those of the list as it was at first.
-/
namespace PocketLisp

/-- An argument that has been evaluated: its form, its value, and the store after it. -/
structure Evaluated where
  form : Value
  value : Value
  after : Store

/-- `Walks eval args s trace rest t`: along the list `args`, from the store `s` on, the forms of the
trace come up and are evaluated one after the other, each in the store that the one before has left,
to values that are no errors. Then the walk has come to `rest` and to the store `t`. What follows a
form is looked up after it has been evaluated. -/
inductive Walks (eval : Value → Run Value) :
    Value → Store → List Evaluated → Value → Store → Prop where
  | here {args : Value} {s : Store} : Walks eval args s [] args s
  | next {args rest v : Value} {s t u : Store} {c : Cell} {trace : List Evaluated}
      (cell : s.cell? args = some c) (value : eval c.car s = .ok v t) (noError : v.isError = false)
      (others : Walks eval (t.cdr args) t trace rest u) :
      Walks eval args s (⟨c.car, v, t⟩ :: trace) rest u

section walks

variable {eval : Value → Run Value} {args rest last v : Value} {s₀ s s' t : Store}
  {trace : List Evaluated}

theorem Walks.noError (h : Walks eval args s trace rest t) :
    ∀ x ∈ trace, x.value.isError = false := by
  induction h with
  | here => exact List.forall_mem_nil _
  | next _ _ noError _ ih => exact List.forall_mem_cons.2 ⟨noError, ih⟩

/-- The values of a list come from a walk along it: to its end, where they are put into a new list,
or to a form whose value is an error. -/
theorem exists_walks {fuel : Nat} {done : List Value}
    (h : evalList eval fuel done args s = .ok v s') : ∃ trace rest t,
      Walks eval args s trace rest t ∧
      ((t.cell? rest = none ∧ t.ofList (done.reverse ++ trace.map Evaluated.value) = (v, s')) ∨
        ∃ c, t.cell? rest = some c ∧ eval c.car t = .ok v s' ∧ v.isError = true) := by
  induction fuel generalizing done args s with
  | zero => cases h
  | succ fuel ih =>
    simp only [evalList, Run.look_bind_apply] at h
    cases cell : s.cell? args with
    | none =>
      simp only [cell, Run.make_apply] at h
      cases h
      exact ⟨[], args, s, .here, .inl ⟨cell, by simp⟩⟩
    | some c =>
      simp only [cell, Run.bind_eq_ok_iff] at h
      obtain ⟨w, t, value, h⟩ := h
      split at h
      · next error =>
        cases h
        exact ⟨[], args, s, .here, .inr ⟨c, cell, value, error⟩⟩
      · next noError =>
        rw [Bool.not_eq_true] at noError
        simp only [Run.look_bind_apply] at h
        obtain ⟨trace, rest, u, others, outcome⟩ := ih h
        refine ⟨⟨c.car, w, t⟩ :: trace, rest, u, .next cell value noError others, ?_⟩
        simpa using outcome

/-- While the cells of a list stay as they are, the walk along it takes its forms in order, and the
form at which it stands is the next one. -/
theorem Walks.follows (h : Walks eval args s trace rest t) {cells : List Nat} {forms : List Value}
    (chain : Chain s₀ last args cells forms) (ends : ∀ b, last ≠ .cons b)
    (keeps : ∀ u ∈ s :: trace.map Evaluated.after, ∀ b ∈ cells, u.cells[b]? = s₀.cells[b]?) :
    ∃ others, forms = trace.map Evaluated.form ++ others ∧
      (t.cell? rest).map Cell.car = others.head? := by
  induction h generalizing cells forms with
  | @here args s =>
    refine ⟨forms, rfl, ?_⟩
    cases chain with
    | nil =>
      cases last with
      | cons b => exact absurd rfl (ends b)
      | _ => rfl
    | cons cell _ =>
      rw [Store.cell?, keeps s List.mem_cons_self _ List.mem_cons_self, cell]
      rfl
  | @next args rest v s t u c trace cell value noError _ ih =>
    cases chain with
    | nil =>
      obtain ⟨b, rfl, -⟩ := Store.cell?_eq_some cell
      exact absurd rfl (ends b)
    | @cons b x next cells forms link tail =>
      simp only [List.map_cons, List.forall_mem_cons] at keeps
      obtain ⟨before, after, later⟩ := keeps
      have here : s.cell? (.cons b) = some ⟨x, next⟩ := before.1.trans link
      have still : t.cell? (.cons b) = some ⟨x, next⟩ := after.1.trans link
      cases here.symm.trans cell
      have step : t.cdr (.cons b) = next := by rw [Store.cdr, still]
      rw [step] at ih
      obtain ⟨others, rfl, stands⟩ :=
        ih tail (List.forall_mem_cons.2 ⟨after.2, fun w hw => (later w hw).2⟩)
      exact ⟨others, rfl, stands⟩

end walks

namespace Store
variable {s : Store} {table : Nat} {sym : Symbol}

theorem nextSerial_le_intern (s : Store) (table : Nat) (name : String) :
    s.nextSerial ≤ (s.intern table name).2.nextSerial := by
  unfold intern
  split
  · exact Nat.le_refl _
  split
  · exact Nat.le_refl _
  · exact Nat.le_succ _

/-- A symbol of a table after a name has been interned was there before or is newer than all. -/
theorem findSymbol?_intern_cases {name n : String}
    (h : (s.intern table name).2.findSymbol? table n = some sym) :
    s.findSymbol? table n = some sym ∨ s.nextSerial ≤ sym.serial := by
  by_cases hnil : name = "nil"
  · rw [hnil, intern_nil] at h
    exact .inl h
  cases hfind : s.findSymbol? table name with
  | some own =>
    rw [intern_of_findSymbol? hfind hnil] at h
    exact .inl h
  | none =>
    rw [intern_of_none hfind hnil] at h
    simp only [findSymbol?, symbols, Array.getElem?_modify] at h ⊢
    cases htable : s.tables[table]? with
    | none => simp [htable] at h
    | some syms =>
      simp only [htable, if_true, Option.map_some, Option.getD_some, List.find?_cons] at h ⊢
      split at h
      · cases h
        exact .inr (Nat.le_refl _)
      · exact .inl h

/-- The symbol of a name is one that the table has or is newer than all. -/
theorem exists_intern_eq_sym {name : String} (s : Store) (table : Nat) (hname : name ≠ "nil") :
    ∃ sym, (s.intern table name).1 = .sym sym ∧
      (s.findSymbol? table name = some sym ∨ s.nextSerial ≤ sym.serial) := by
  cases hfind : s.findSymbol? table name with
  | some own =>
    rw [intern_of_findSymbol? hfind hname]
    exact ⟨own, rfl, .inl rfl⟩
  | none =>
    rw [intern_of_none hfind hname]
    exact ⟨_, rfl, .inr (Nat.le_refl _)⟩

/-- A head that is none of the symbols that the table has for the names of special forms is no
special form, and all these names are interned. The symbols that get made then are no heads: if the
head is a symbol, it has been made before. -/
theorem keywordAmong_eq_none {op : Value} {names : List (String × Keyword)}
    (hnames : ∀ entry ∈ names, entry.1 ≠ "nil")
    (drawn : ∀ sym, op = .sym sym → sym.serial < s.nextSerial)
    (other : ∀ entry ∈ names, ∀ sym, s.findSymbol? table entry.1 = some sym → op ≠ .sym sym) :
    keywordAmong table op names s = (none, s.internAll table (names.map Prod.fst)) := by
  induction names generalizing s with
  | nil => rfl
  | cons entry more ih =>
    obtain ⟨hname, hmore⟩ := List.forall_mem_cons.1 hnames
    obtain ⟨first, others⟩ := List.forall_mem_cons.1 other
    have apart : op ≠ (s.intern table entry.1).1 := by
      obtain ⟨sym, interned, old | new⟩ := s.exists_intern_eq_sym table hname
      · exact interned ▸ first sym old
      · exact fun same => absurd (drawn sym (same.trans interned)) (Nat.not_lt.2 new)
    rw [keywordAmong, if_neg apart, ih hmore
      (fun sym same => Nat.lt_of_lt_of_le (drawn sym same) (s.nextSerial_le_intern table entry.1))]
    · rfl
    · intro entry' hentry' sym found
      rcases findSymbol?_intern_cases found with old | new
      · exact others entry' hentry' sym old
      · exact fun same => absurd (drawn sym same) (Nat.not_lt.2 new)

end Store

section application

variable {host : Host} {width a : Nat} {env : Env} {op args v : Value} {s s' : Store}

/-- A form whose head is no special form is an application, after the names of all special forms
have been interned. -/
theorem eval_application (cell : s.cells[a]? = some ⟨op, args⟩)
    (drawn : ∀ sym, op = .sym sym → sym.serial < s.nextSerial)
    (other : ∀ name ∈ ["quote", "if", "lambda", "defun"], ∀ sym,
      s.findSymbol? env.table name = some sym → op ≠ .sym sym) (depth : Nat) :
    run host width (depth + 1) (.eval (.cons a) env) s =
      evalApplication host width (run host width depth) op args env
        (s.internAll env.table ["quote", "if", "lambda", "defun"]) := by
  have head : s.keyword env.table op =
      (none, s.internAll env.table ["quote", "if", "lambda", "defun"]) := by
    refine Store.keywordAmong_eq_none (by decide) drawn fun entry hentry sym found => ?_
    exact other entry.1 (List.mem_map_of_mem hentry) sym found
  simp only [run_succ, step, evalStep_cell _ _ cell, evalCell_apply, head]

/-- A value for an application comes from the head, which is evaluated first, and from a walk along
the arguments in the store that it has left. If the walk has come to the end of the list, the head's
value is applied to a new list of the values of the arguments. If it stands at a form whose value is
an error, nothing is done after that form. An error that is the head's value goes before the one
among the arguments, and nothing is applied. The walk takes the arguments that the form has at
first, in order, if their cells stay as they are; whatever ends their list is ignored. -/
theorem application_order {e : Engine} (cell : s.cells[a]? = some ⟨op, args⟩)
    (drawn : ∀ sym, op = .sym sym → sym.serial < s.nextSerial)
    (other : ∀ name ∈ ["quote", "if", "lambda", "defun"], ∀ sym,
      s.findSymbol? env.table name = some sym → op ≠ .sym sym)
    (h : e.eval (.cons a) env s = .ok v s') :
    ∃ (inner : Engine) (f rest : Value) (s₂ s₃ : Store) (trace : List Evaluated),
      e = { inner with depth := inner.depth + 1 } ∧
      inner.eval op env (s.internAll env.table ["quote", "if", "lambda", "defun"]) = .ok f s₂ ∧
      Walks (fun form => inner.eval form env) args s₂ trace rest s₃ ∧
      (∀ x ∈ trace, x.value.isError = false) ∧
      ((s₃.cell? rest = none ∧ ∃ list s₄ fresh,
          Chain s₄ .nil list fresh (trace.map Evaluated.value) ∧
          (∀ b ∈ fresh, s₃.IsNew s₄ b) ∧ Allocates s₃ s₄ ∧
          e.apply f list s₄ = .ok v s' ∧ (f.isError = true → v = f ∧ s' = s₄)) ∨
        ∃ c w, s₃.cell? rest = some c ∧ inner.eval c.car env s₃ = .ok w s' ∧ w.isError = true ∧
          v = if f.isError then f else w) ∧
      ∀ last cells forms, Chain s last args cells forms → (∀ b, last ≠ .cons b) →
        (∀ t ∈ s₂ :: trace.map Evaluated.after, ∀ b ∈ cells, t.cells[b]? = s.cells[b]?) →
        ∃ others, forms = trace.map Evaluated.form ++ others ∧
          (s₃.cell? rest).map Cell.car = others.head? := by
  obtain ⟨host, width, depth⟩ := e
  cases depth with
  | zero => cases h
  | succ depth =>
    have application : evalApplication host width (run host width depth) op args env _ = .ok v s' :=
      (eval_application cell drawn other depth).symm.trans h
    simp only [evalApplication, Run.bind_eq_ok_iff] at application
    obtain ⟨f, s₂, head, list, s₄, values, applied⟩ := application
    obtain ⟨trace, rest, s₃, walks, outcome⟩ := exists_walks values
    refine ⟨⟨host, width, depth⟩, f, rest, s₂, s₃, trace, rfl, head, walks, walks.noError, ?_,
      fun last cells forms chain ends keeps => walks.follows chain ends keeps⟩
    rcases outcome with ⟨finished, made⟩ | ⟨c, stands, value, error⟩
    · refine .inl ⟨finished, list, s₄, ?_⟩
      obtain ⟨grow, fresh, chain, new⟩ := s₃.ofList_chain (trace.map Evaluated.value)
      rw [List.reverse_nil, List.nil_append] at made
      rw [made] at grow chain new
      refine ⟨fresh, chain, new, grow, applied, fun error => ?_⟩
      cases (applyStep_headError width _ error list s₄).symm.trans applied
      exact ⟨rfl, rfl⟩
    · refine .inr ⟨c, list, stands, ?_⟩
      cases headError : f.isError with
      | true =>
        cases (applyStep_headError width _ headError list s₄).symm.trans applied
        exact ⟨value, error, rfl⟩
      | false =>
        cases (applyStep_argsError width _ headError error s₄).symm.trans applied
        exact ⟨value, error, rfl⟩

/-- A head and three arguments, the second of which is an error: it is the value, and the walk
stands at it, with the first argument behind it. -/
theorem application_order_error : ∃ (e inner : Engine) (s s' s₃ : Store) (env : Env)
    (rest x y z : Value) (trace : List Evaluated),
    s.elements (.cons 0) = [.subr 0 .cons, x, y, z] ∧ y.isError = true ∧
    e.eval (.cons 0) env s = .ok y s' ∧ e = { inner with depth := inner.depth + 1 } ∧
    Walks (fun form => inner.eval form env) (.cons 1)
      (s.internAll env.table ["quote", "if", "lambda", "defun"]) trace rest s₃ ∧
    trace.map Evaluated.form = [x] ∧ (s₃.cell? rest).map Cell.car = some y ∧
    inner.eval y env s₃ = .ok y s' := by
  let s : Store := ⟨#[⟨.subr 0 .cons, .cons 1⟩, ⟨.nil, .cons 2⟩, ⟨.error 1 "stop", .cons 3⟩,
    ⟨.nil, .nil⟩], #[], #[[]], 2, #[]⟩
  let env : Env := ⟨0, .nil, 0, 0, .nil⟩
  have value : (match (Engine.core 5 2).eval (.cons 0) env s with
      | .ok v _ => some v
      | .error _ _ => none) = some (.error 1 "stop") := by decide +kernel
  split at value
  · next s' run =>
    cases value
    obtain ⟨⟨host, width, depth⟩, f, rest, s₂, s₃, trace, same, head, walks, -, outcome, -⟩ :=
      application_order (show s.cells[0]? = some ⟨.subr 0 .cons, .cons 1⟩ from rfl)
        (fun _ same => by cases same) (fun _ _ _ _ same => by cases same) run
    cases same
    -- What is neither a symbol nor a cell is its own value and changes nothing.
    have self (v : Value) (t : Store) (symbol : ∀ sym, v ≠ .sym sym) (atom : t.cell? v = none) :
        (Engine.core 5 1).eval v env t = .ok v t := evalStep_self 5 _ symbol atom
    cases (self (.subr 0 .cons) _ (by simp) rfl).symm.trans head
    have cells := s.cells_internAll env.table ["quote", "if", "lambda", "defun"]
    have cell {a : Nat} {c : Cell} (h : s.cells[a]? = some c) :
        (s.internAll env.table ["quote", "if", "lambda", "defun"]).cell? (.cons a) = some c :=
      (congrArg (fun cells => cells[a]?) cells).trans h
    have walk := walks
    cases walks with
    | here =>
      rcases outcome with ⟨finished, -⟩ | ⟨c, w, stands, value, error, -⟩
      · cases (cell rfl).symm.trans finished
      · cases (cell rfl).symm.trans stands
        cases (self .nil _ (by simp) rfl).symm.trans value
        cases error
    | next first value noError others =>
      cases (cell rfl).symm.trans first
      cases (self .nil _ (by simp) rfl).symm.trans value
      rw [Store.cdr, cell rfl] at others
      cases others with
      | here =>
        rcases outcome with ⟨finished, -⟩ | ⟨c, w, stands, value, -, same⟩
        · cases (cell rfl).symm.trans finished
        · cases (cell rfl).symm.trans stands
          cases same
          exact ⟨Engine.core 5 2, Engine.core 5 1, s, s', _, env, .cons 2, .nil, .error 1 "stop",
            .nil, _, rfl, rfl, run, rfl, walk, rfl, congrArg _ stands, value⟩
      | next second value noError _ =>
        cases (cell rfl).symm.trans second
        cases (self (.error 1 "stop") _ (by simp) rfl).symm.trans value
        cases noError
  · cases value

end application

section relinking

/-- A host with procedures that give the list of their arguments, reverse a list in place, and give
the body of a closure. -/
def relinkingHost : Host := fun _ name args =>
  match name with
  | "list" => pure args
  | "nreverse" => Run.make (fun s => s.reverse (s.car args))
  | "body" => do
    let f ← Run.look (·.car args)
    let c ← asClosure f
    pure c.body
  | _ => pure .nil

/-- A session with a function whose body reverses the list of its own arguments. -/
def relinkingSession : Run Env := do
  let root ← Env.newSession
  root.define "list" (.subr 0 (.host "list"))
  root.define "nreverse" (.subr 0 (.host "nreverse"))
  root.define "body" (.subr 0 (.host "body"))
  let _ ← Engine.rep ⟨relinkingHost, 9, 9⟩ root
    "(defun f () (list (nreverse (cdr (car (body f)))) 2 3))"
  return root

/-- The head and then the given argument forms are evaluated, up to the first error among these, and
the head's value is applied to what they give. -/
def applyToForms (e : Engine) (op : Value) (forms : List Value) (env : Env) : Run Value := do
  let f ← e.eval op env
  let values ← evalEach (fun form => e.eval form env) [] forms
  applyStep e.host e.width e.answer f values

/-- The first argument of the function's body reverses the list of the arguments, so the other two
do not come up. Were all three forms evaluated, the list of their values would be longer. -/
theorem arguments_relinked : ∃ (root : Env) (s s' t : Store) (a : Nat) (op args v w : Value),
    relinkingSession Store.empty = .ok root s ∧ s.cells[a]? = some ⟨op, args⟩ ∧
    (s.elements args).length = 3 ∧
    (∀ name ∈ ["quote", "if", "lambda", "defun"], ∀ sym,
      s.findSymbol? root.table name = some sym → op ≠ .sym sym) ∧
    Engine.eval ⟨relinkingHost, 9, 9⟩ (.cons a) root s = .ok v s' ∧
    s'.print v = "((3 2 (nreverse (cdr (car (body f))))))" ∧
    applyToForms ⟨relinkingHost, 9, 8⟩ op (s.elements args) root
      (s.internAll root.table ["quote", "if", "lambda", "defun"]) = .ok w t ∧
    t.print w = "((3 2 (nreverse (cdr (car (body f))))) 2 3)" := by
  have value : (match relinkingSession Store.empty with
      | .ok root s => match Engine.eval ⟨relinkingHost, 9, 9⟩ (.cons 18) root s with
        | .ok v s' => match applyToForms ⟨relinkingHost, 9, 8⟩ (s.car (.cons 18))
              (s.elements (s.cdr (.cons 18))) root
              (s.internAll root.table ["quote", "if", "lambda", "defun"]) with
          | .ok w t => some (decide (18 < s.cells.size), (s.elements (s.cdr (.cons 18))).length,
              s.print (s.car (.cons 18)), s'.print v, t.print w)
          | .error _ _ => none
        | .error _ _ => none
      | .error _ _ => none) =
        some (true, 3, "list", "((3 2 (nreverse (cdr (car (body f))))))",
          "((3 2 (nreverse (cdr (car (body f))))) 2 3)") := by decide +kernel
  split at value
  · next root s session =>
    split at value
    · next v s' evaluation =>
      split at value
      · next w t all =>
        simp only [Option.some.injEq, Prod.mk.injEq, decide_eq_true_eq] at value
        obtain ⟨inside, count, head, short, long⟩ := value
        obtain ⟨⟨op, args⟩, cell⟩ : ∃ c, s.cell? (.cons 18) = some c :=
          ⟨_, Array.getElem?_eq_getElem inside⟩
        simp only [Store.car, Store.cdr, cell] at count head all
        refine ⟨root, s, s', t, 18, op, args, v, w, session, cell, count, ?_, evaluation, short,
          all, long⟩
        intro name special sym found same
        rw [same, Store.print_sym, Store.name_of_findSymbol? found] at head
        subst head
        simp at special
      · cases value
    · cases value
  · cases value

end relinking

end PocketLisp
