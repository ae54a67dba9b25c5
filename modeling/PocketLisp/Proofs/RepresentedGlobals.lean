import PocketLisp.Proofs.ReaderRuns
import PocketLisp.Proofs.StoredValues

/-!
# Stores that represent globals

A store represents the globals whose bindings its global frame holds. The operations of which an
evaluation consists keep this, and what they make shows what the reference semantics makes.
-/
namespace PocketLisp

/-- The global frame of the store holds the globals, and all closures of the store extend it. -/
structure Represents (table global : Nat) (s : Store) (g : Globals) : Prop where
  hasTable : table < s.tables.size
  rooted : Rooted global s
  frame : ∃ alist bindings, s.cells[global]? = some ⟨alist, .nil⟩ ∧
    Shows table global s alist (.bindings bindings) ∧ g = .ofBindings bindings

structure Holds (table global : Nat) (s : Store) (env : Env) (locals : Locals) : Prop where
  own : env.table = table
  root : env.globalFrames = .cons global
  frames : Shows table global s env.frames (.frames locals)

def Value.name? : Value → Option String
  | .sym x => some x.name
  | _ => none

section operations

variable {table global : Nat} {s s' : Store} {g : Globals}

theorem Holds.grow {env : Env} {locals : Locals} (h : Holds table global s env locals)
    (hs : GrowsAt global s s') : Holds table global s' env locals :=
  ⟨h.own, h.root, h.frames.grow hs⟩

theorem Represents.global_lt (h : Represents table global s g) : global < s.cells.size := by
  obtain ⟨alist, bindings, cell, -⟩ := h.frame
  exact (Array.getElem?_eq_some_iff.1 cell).1

theorem Represents.of_extends (h : Represents table global s g) (hs : Extends s s')
    (hasTable : table < s'.tables.size) (rooted : Rooted global s') :
    Represents table global s' g where
  hasTable := hasTable
  rooted := rooted
  frame := by
    obtain ⟨alist, bindings, cell, shows, hg⟩ := h.frame
    exact ⟨alist, bindings, hs.cells _ _ cell, shows.grow (hs.growsAt global), hg⟩

theorem Represents.addsData (h : Represents table global s g) (adds : AddsData s s') :
    Represents table global s' g :=
  h.of_extends adds.toExtends (adds.tableCount.symm ▸ h.hasTable)
    (h.rooted.of_closures_eq adds.sameClosures)

theorem Represents.ne_of_isNew (h : Represents table global s g) {a : Nat}
    (new : Store.IsNew s s' a) : a ≠ global := by
  have hglobal := h.global_lt
  have hnew := new.1
  omega

/-- Looking a symbol up in an environment finds the value of its name. -/
theorem Represents.findPair?_rel (h : Represents table global s g) {env : Env} {locals : Locals}
    (henv : Holds table global s env locals) {sym : Symbol}
    (own : s.findSymbol? table sym.name = some sym) :
    Option.Rel (fun pair x => Shows table global s (s.cdr pair) (.value x))
      (s.findPair? env.frames (.sym sym)) (lookup locals g sym.name) := by
  obtain ⟨alist, bindings, cell, shows, rfl⟩ := h.frame
  obtain ⟨cells, frames, chain, found⟩ := Shows.findSome_frame own cell shows henv.frames
  rw [Store.findPair?, chain.elements_eq rfl]
  exact found

theorem intern_own (hT : table < s.tables.size) {name : String} (hname : name ≠ "nil") :
    ∃ sym : Symbol, (s.intern table name).1 = .sym sym ∧ sym.name = name ∧
      (s.intern table name).2.findSymbol? table name = some sym := by
  rcases Store.intern_eq_self_iff.1 (Store.intern_intern hT name) with ⟨hnil, -⟩ | ⟨-, sym, own, hv⟩
  · exact absurd hnil hname
  · exact ⟨sym, hv, Store.name_of_findSymbol? own, own⟩

theorem eq_intern_iff (hT : table < s.tables.size) {v : Value} {name : String}
    (own : ∀ sym, v = .sym sym → s.findSymbol? table sym.name = some sym) (hname : name ≠ "nil") :
    v = (s.intern table name).1 ↔ v.name? = some name := by
  obtain ⟨sym, hsym, rfl, hown⟩ := intern_own hT hname
  rw [hsym]
  cases v with
  | sym x =>
    have kept := (s.addsData_intern table sym.name).symbols _ _ _ (own x rfl)
    simp only [Value.sym.injEq, Value.name?, Option.some.injEq]
    constructor
    · exact congrArg _
    · intro same
      rw [same] at kept
      exact Option.some.inj (kept.symm.trans hown)
  | _ => simp [Value.name?]

/-- The head of a form is compared to the names of the special forms by identity. For a symbol of
the table this tells whether the names are the same. -/
theorem keywordAmong_eq_lookup {names : List (String × Keyword)} (hT : table < s.tables.size)
    (hnames : ∀ entry ∈ names, entry.1 ≠ "nil") {op : Value}
    (own : ∀ sym, op = .sym sym → s.findSymbol? table sym.name = some sym) :
    (Store.keywordAmong table op names s).1 = op.name?.bind (List.lookup · names) := by
  induction names generalizing s with
  | nil => cases op <;> rfl
  | cons entry names ih =>
    obtain ⟨name, k⟩ := entry
    obtain ⟨hname, hnames⟩ := List.forall_mem_cons.1 hnames
    have adds := s.addsData_intern table name
    have others := ih (adds.tableCount.symm ▸ hT) hnames fun sym hsym =>
      adds.symbols _ _ _ (own sym hsym)
    have first := eq_intern_iff hT own hname
    simp only [Store.keywordAmong]
    by_cases heq : op.name? = some name
    · rw [if_pos (first.2 heq), heq, Option.bind_some, List.lookup_cons_self]
    · rw [if_neg fun h => heq (first.1 h), others]
      cases op with
      | sym x =>
        have hne : (x.name == name) = false := by simpa [Value.name?] using heq
        simp only [Value.name?, Option.bind_some, List.lookup_cons, hne]
      | _ => rfl

theorem keywordAmong_eq {names : List (String × Keyword)} (hT : table < s.tables.size)
    (hnames : ∀ entry ∈ names, entry.1 ≠ "nil") {op : Value} {x : PureValue}
    (h : Shows table global s op (.value x)) :
    (Store.keywordAmong table op names s).1 = keywordAmong names x := by
  have own : ∀ sym, op = .sym sym → s.findSymbol? table sym.name = some sym := by
    rintro sym rfl
    cases h with
    | sym own => exact own
  rw [keywordAmong_eq_lookup hT hnames own]
  cases h <;> rfl

theorem forall_keywords_ne : ∀ entry ∈ keywords, entry.1 ≠ "nil" := by simp [keywords]

theorem Represents.keyword_eq (h : Represents table global s g) {op : Value} {x : PureValue}
    (hop : Shows table global s op (.value x)) :
    ∃ s₁, s.keyword table op = (keywordOf x, s₁) ∧ Extends s s₁ ∧
      Represents table global s₁ g := by
  have adds := s.addsData_keyword table op
  refine ⟨(s.keyword table op).2, ?_, adds.toExtends, h.addsData adds⟩
  exact Prod.ext (keywordAmong_eq h.hasTable forall_keywords_ne hop) rfl

theorem Represents.closure (h : Represents table global s g) {env : Env} {locals : Locals}
    {params body : Value} {x y : PureValue} (henv : Holds table global s env locals)
    (hparams : Shows table global s params (.value x))
    (hbody : Shows table global s body (.value y)) :
    GrowsAt global s (s.closure params body env).2 ∧
      Represents table global (s.closure params body env).2 g ∧
      Shows table global (s.closure params body env).2 (s.closure params body env).1
        (.value (.atom (.closure x y locals))) := by
  have grow := (s.extends_closure params body env).growsAt global
  refine ⟨grow, h.of_extends (s.extends_closure params body env) h.hasTable
    (h.rooted.closure henv.root params body), ?_⟩
  have last : (s.closure params body env).2.closures[s.closures.size]? =
      some ⟨params, body, env⟩ := by
    simp [Store.closure]
  exact .expr last henv.own henv.root (hparams.grow grow) (hbody.grow grow) (henv.frames.grow grow)

/-- The cells of a definition: the global frame starts with the pair of its name and its closure. -/
theorem Represents.defun_cells (h : Represents table global s g) {env : Env} {locals : Locals}
    {params body f : Value} {y z : PureValue} {frame : Cell}
    (henv : Holds table global s env locals) (hparams : Shows table global s params (.value y))
    (hbody : Shows table global s body (.value z))
    (function : s.closure params body env = (f, s')) (hframe : s.cells[global]? = some frame)
    (name : Value) : GrowsAt global s (s'.bind (.cons global) frame.car name f) ∧
      ∃ a p, a ≠ global ∧ p ≠ global ∧
      (s'.bind (.cons global) frame.car name f).cells[global]? = some ⟨.cons a, frame.cdr⟩ ∧
      (s'.bind (.cons global) frame.car name f).cells[a]? = some ⟨.cons p, frame.car⟩ ∧
      (s'.bind (.cons global) frame.car name f).cells[p]? = some ⟨name, f⟩ ∧
      Shows table global (s'.bind (.cons global) frame.car name f) f
        (.value (.atom (.closure y z locals))) := by
  have hglobal := h.global_lt
  obtain ⟨hf, hs'⟩ := Store.closure_eq_iff.1 function
  have hcells : s'.cells = s.cells := by rw [hs']
  have hclosures : s'.closures = s.closures.push ⟨params, body, env⟩ := by rw [hs']
  rw [← hcells] at hframe
  have grow := @Store.growsAt_defun _ _ _ _ _ _ name _ _ function hframe
  obtain ⟨-, front, next, pair, -⟩ := Store.bind_spec hframe name f
  have last : (s'.bind (.cons global) frame.car name f).closures[s.closures.size]? =
      some ⟨params, body, env⟩ := by
    rw [Store.closures_bind, hclosures, Array.getElem?_push_size]
  refine ⟨grow, s'.cells.size + 1, s'.cells.size, by rw [hcells]; omega, by rw [hcells]; omega,
    front, next, pair, ?_⟩
  rw [hf] at grow last ⊢
  exact .expr last henv.own henv.root (hparams.grow grow) (hbody.grow grow) (henv.frames.grow grow)

theorem Represents.defun (h : Represents table global s g) {env : Env} {locals : Locals}
    {name params body f : Value} {x y z : PureValue} {frame : Cell}
    (henv : Holds table global s env locals) (hname : Shows table global s name (.value x))
    (hparams : Shows table global s params (.value y))
    (hbody : Shows table global s body (.value z))
    (function : s.closure params body env = (f, s')) (hframe : s'.cells[global]? = some frame) :
    GrowsAt global s (s'.bind (.cons global) frame.car name f) ∧
      Represents table global (s'.bind (.cons global) frame.car name f)
        (define g x (.atom (.closure y z locals))) := by
  have rooted := h.rooted.closure henv.root params body
  obtain ⟨-, hs'⟩ := Store.closure_eq_iff.1 function
  have hcells : s'.cells = s.cells := by rw [hs']
  have htables : s'.tables = s.tables := by rw [hs']
  rw [hcells] at hframe
  obtain ⟨grow, a, p, ha, hp, front, next, pair, closure⟩ :=
    h.defun_cells henv hparams hbody function hframe name
  obtain ⟨alist, bindings, cell, shows, rfl⟩ := h.frame
  cases cell.symm.trans hframe
  have old := shows.grow grow
  refine ⟨grow, ?_, ?_, ?_⟩
  · rw [Store.tables_bind, htables]
    exact h.hasTable
  · rw [function] at rooted
    exact rooted.of_closures_eq (Store.closures_bind _ _ _ _ _)
  · cases hname with
    | sym own =>
      exact ⟨_, _, front, .bind ha next hp pair (grow.symbols _ _ _ own) closure old, rfl⟩
    | _ => exact ⟨_, _, front, .skip ha next hp pair (by simp) old, rfl⟩

theorem Represents.allocates (h : Represents table global s g) (allocates : Allocates s s') :
    GrowsAt global s s' ∧ Represents table global s' g :=
  ⟨allocates.toExtends.growsAt global, h.addsData allocates.addsData⟩

private theorem forall₂_zip_zip {α β γ δ : Type} {r : α → β → Prop} {r' : γ → δ → Prop}
    {as : List α} {bs : List β} {cs : List γ} {ds : List δ} (h : List.Forall₂ r as bs)
    (h' : List.Forall₂ r' cs ds) :
    List.Forall₂ (fun e x => r e.1 x.1 ∧ r' e.2 x.2) (as.zip cs) (bs.zip ds) := by
  induction h generalizing cs ds with
  | nil => exact .nil
  | cons first _ ih =>
    cases h' with
    | nil => exact .nil
    | cons first' others' => exact .cons ⟨first, first'⟩ (ih others')

theorem Represents.extend (h : Represents table global s g) {e : Env} {locals : Locals}
    {params args : Value} {x y : PureValue} (he : Holds table global s e locals)
    (hparams : Shows table global s params (.value x))
    (hargs : Shows table global s args (.value y)) :
    GrowsAt global s (s.extend e params args).2 ∧
      Represents table global (s.extend e params args).2 g ∧
      Holds table global (s.extend e params args).2 (s.extend e params args).1
        (bindParams x y :: locals) := by
  have hglobal := h.global_lt
  obtain ⟨growZip, fresh, pairs, chain, new, newPairs, hold⟩ := s.zip_chain params args
  obtain ⟨frame, hframe⟩ : ∃ frame, s.zip params args = frame := ⟨_, rfl⟩
  rw [hframe] at growZip chain new newPairs hold
  have growZipAt := growZip.toExtends.growsAt global
  have growCons := Store.allocates_cons frame.2 frame.1 e.frames
  have growInner := Store.allocates_newInner (frame.2.cons frame.1 e.frames).2
    (frame.2.cons frame.1 e.frames).1 e
  have hextend : s.extend e params args =
      (frame.2.cons frame.1 e.frames).2.newInner (frame.2.cons frame.1 e.frames).1 e := by
    rw [Store.extend, hframe]
  have bindings : Shows table global frame.2 frame.1 (.bindings (bindParams x y)) := by
    refine .of_pairs chain (fun a ha => h.ne_of_isNew (new a ha))
      (fun p hp => h.ne_of_isNew (newPairs p hp)) hold ?_
    refine (forall₂_zip_zip hparams.elements hargs.elements).imp fun entry x both => ?_
    exact ⟨both.1.grow growZipAt, both.2.grow growZipAt⟩
  have growLast := (growCons.trans growInner).toExtends.growsAt global
  obtain ⟨grow, represents⟩ := h.allocates ((growZip.trans growCons).trans growInner)
  have hnew : frame.2.cells.size ≠ global := by
    have := growZip.size_le
    omega
  rw [hextend]
  refine ⟨grow, represents, he.own, he.root, ?_⟩
  exact .frame hnew (Store.getElem?_cons_self frame.2 frame.1 e.frames) (bindings.grow growLast)
    (he.frames.grow grow)

/-- A builtin makes of values what it makes of the values that they show. -/
theorem Represents.call (h : Represents table global s g) {args : Value} {x : PureValue}
    (hargs : Shows table global s args (.value x)) (b : Builtin) :
    GrowsAt global s (s.call b.procedure args).2 ∧
      Represents table global (s.call b.procedure args).2 g ∧
      Shows table global (s.call b.procedure args).2 (s.call b.procedure args).1
        (.value (b.result x)) := by
  obtain ⟨grow, represents⟩ := h.allocates (Store.allocates_call s b.procedure args)
  refine ⟨grow, represents, ?_⟩
  cases b with
  | car => exact hargs.car.car
  | cdr => exact hargs.car.cdr
  | cons =>
    have hglobal := h.global_lt
    exact .cons (by omega) (Store.getElem?_cons_self s _ _) (hargs.car.grow grow)
      (hargs.cdr.car.grow grow)

theorem Represents.ofList (h : Represents table global s g) {vs : List Value} {xs : List PureValue}
    (elements : List.Forall₂ (fun v x => Shows table global s v (.value x)) vs xs) :
    GrowsAt global s (s.ofList vs).2 ∧ Represents table global (s.ofList vs).2 g ∧
      Shows table global (s.ofList vs).2 (s.ofList vs).1 (.value (.ofList .nil xs)) := by
  obtain ⟨allocates, fresh, chain, new⟩ := s.ofList_chain vs
  obtain ⟨grow, represents⟩ := h.allocates allocates
  refine ⟨grow, represents, .of_chain chain (fun a ha => h.ne_of_isNew (new a ha)) ?_⟩
  exact elements.imp fun _ _ shows => shows.grow grow

/-- What a text is read to shows the datum that it is read to. -/
theorem Represents.read_of_form (h : Represents table global s g) {text rest : List Char}
    {names : List String} {d : Datum} {short : rest.length ≤ text.length}
    (form : readForm text [] text (Nat.le_succ _) = .form names d rest short) : ∃ v s',
      PocketLisp.read table text s = .ok (v, rest) s' ∧ Represents table global s' g ∧
      Shows table global s' v (.value (d.map Atom.toPure)) := by
  have hglobal := h.global_lt
  obtain ⟨v, s', reading, adds, unfolds⟩ := PocketLisp.read_of_form h.hasTable form
  refine ⟨v, s', reading, h.addsData adds, Unfolds.shows ?_⟩
  exact unfolds.imp (fun _ _ atom => atom) fun a c hnew cell => ⟨by omega, cell⟩

theorem Represents.read (h : Represents table global s g) {text : List Char}
    (short : NoOverlong text) : ∃ names d rest short' v s',
      readForm text [] text (Nat.le_succ _) = .form names d rest short' ∧
      PocketLisp.read table text s = .ok (v, rest) s' ∧ Represents table global s' g ∧
      Shows table global s' v (.value (d.map Atom.toPure)) := by
  obtain ⟨names, d, rest, short', -, -, form, -⟩ := exists_read h.hasTable short
  obtain ⟨v, s', reading, hg, shows⟩ := h.read_of_form form
  exact ⟨names, d, rest, short', v, s', form, reading, hg, shows⟩

end operations

end PocketLisp
