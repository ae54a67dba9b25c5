import PocketLisp.Proofs.NameCorrespondences

/-!
# The last definition of a name

Of the definitions at the start of a program only the last one of each name matters, and this only
for the names that the program can come to. Programs with other definitions before them, in another
order, overwritten or of other names, cannot be told apart by what their lines answer.
-/
namespace PocketLisp

/-- A name and what follows it in its definition: the parameters and the forms of the body. -/
abbrev Definition := String × Datum

def Definition.form (d : Definition) : Datum :=
  .cons (.atom (.sym "defun")) (.cons (.atom (.sym d.1)) d.2)

def Defines (line : String) (d : Definition) : Prop :=
  ∃ rest, Reads Converts line.toList d.form rest

def lastDefinition (defs : List Definition) (name : String) : Option Datum :=
  defs.reverse.lookup name

/-- The line reads without an error and mentions only names of the set. -/
def ReadsWithin (N : Set String) (line : String) : Prop :=
  ∃ d rest, Reads Converts line.toList d rest ∧ ∀ name ∈ mentioned d, name ∈ N

/-- The last definitions of the names of the set mention only names of the set. -/
def ClosedUnder (N : Set String) (defs : List Definition) : Prop :=
  ∀ x ∈ N, ∀ tail ∈ lastDefinition defs x, ∀ name ∈ mentioned tail, name ∈ N

/-- A fresh session answers all of the lines under all large enough bounds. -/
def Terminates (lines : List String) : Prop :=
  ∃ n outs s, ∀ width depth, n ≤ width → n ≤ depth →
    (Engine.core width depth).session lines Store.empty = .ok outs s

/-- After the lines `P` and after the lines `Q` the lines `S` go the same way: after both of them
they terminate or after none, and no bounds give different answers to them. -/
def Indistinguishable (P Q S : List String) : Prop :=
  (Terminates (P ++ S) ↔ Terminates (Q ++ S)) ∧
  ∀ width depth outs s width' depth' outs' s',
    (Engine.core width depth).session (P ++ S) Store.empty = .ok outs s →
    (Engine.core width' depth').session (Q ++ S) Store.empty = .ok outs' s' →
    outs.drop P.length = outs'.drop Q.length

section definitions

variable {defs others : List Definition}

theorem lastDefinition_append (defs others : List Definition) (name : String) :
    lastDefinition (defs ++ others) name =
      (lastDefinition others name).or (lastDefinition defs name) := by
  simp only [lastDefinition, List.reverse_append, List.lookup_append]

theorem lastDefinition_single (d : Definition) (name : String) :
    lastDefinition [d] name = if name = d.1 then some d.2 else none := by
  by_cases h : name = d.1
  · rw [if_pos h, h]
    exact List.lookup_cons_self
  · have hbeq : (name == d.1) = false := by simpa using h
    rw [if_neg h, lastDefinition, List.reverse_singleton, List.lookup_cons, hbeq, List.lookup_nil]

theorem lastDefinition_cons (d : Definition) (defs : List Definition) (name : String) :
    lastDefinition (d :: defs) name =
      (lastDefinition defs name).or (if name = d.1 then some d.2 else none) := by
  rw [← lastDefinition_single]
  exact lastDefinition_append [d] defs name

theorem lastDefinition_swap {d e : Definition} (different : d.1 ≠ e.1) (name : String) :
    lastDefinition (defs ++ d :: e :: others) name =
      lastDefinition (defs ++ e :: d :: others) name := by
  simp only [lastDefinition_append, lastDefinition_cons]
  by_cases hd : name = d.1
  · simp [hd, different]
  · simp [hd]

/-- A definition is overwritten by a later one of the same name. -/
theorem lastDefinition_overwritten {d e : Definition} {between : List Definition}
    (same : d.1 = e.1) (name : String) :
    lastDefinition (defs ++ d :: (between ++ e :: others)) name =
      lastDefinition (defs ++ (between ++ e :: others)) name := by
  simp only [lastDefinition_append, lastDefinition_cons, same]
  by_cases he : name = e.1 <;> simp [he]

theorem lastDefinition_of_ne {d : Definition} {name : String} (h : name ≠ d.1) :
    lastDefinition (defs ++ d :: others) name = lastDefinition (defs ++ others) name := by
  simp [lastDefinition_append, lastDefinition_cons, h]

end definitions

def globalFunction (tail : Datum) : PureValue :=
  .atom (.closure (PureValue.car (tail.map Atom.toPure))
    (PureValue.cdr (tail.map Atom.toPure)) [])

theorem Defines.lineEvaluates {line : String} {d : Definition} (h : Defines line d) (g : Globals) :
    LineEvaluates g line (.atom (.sym d.1)) (g.insert d.1 (globalFunction d.2)) := by
  obtain ⟨rest, reads⟩ := h
  rw [reads.lineEvaluates_iff]
  exact @Evaluates.defun (.atom (.sym "defun"))
    (.cons (.atom (.sym d.1)) (d.2.map Atom.toPure)) [] g rfl

theorem Defines.errorFree {line : String} {d : Definition} (h : Defines line d) :
    ErrorFree d.2 := by
  obtain ⟨rest, reads⟩ := h
  exact reads.isErrorFree.2.2

theorem errorFree_of_lastDefinition {P : List String} {defs : List Definition}
    (h : List.Forall₂ Defines P defs) {name : String} :
    ∀ tail ∈ lastDefinition defs name, ErrorFree tail := by
  induction h with
  | nil => simp [lastDefinition]
  | cons first _ ih =>
    intro tail htail
    rw [lastDefinition_cons, Option.mem_def, Option.or_eq_some_iff] at htail
    rcases htail with htail | ⟨-, htail⟩
    · exact ih tail htail
    · split at htail
      · cases htail
        exact first.errorFree
      · cases htail

/-- After definitions the value of a name is the function of its last definition. -/
theorem definitions_evaluate {P : List String} {defs : List Definition}
    (h : List.Forall₂ Defines P defs) (g : Globals) :
    ∃ g', LinesEvaluate g P (defs.map fun d => .atom (.sym d.1)) g' ∧ ∀ name,
      g'.lookup name = ((lastDefinition defs name).map globalFunction).or (g.lookup name) := by
  induction h generalizing g with
  | nil => exact ⟨g, .done, fun name => rfl⟩
  | @cons line d P defs first _ ih =>
    obtain ⟨g', values, lookups⟩ := ih (g.insert d.1 (globalFunction d.2))
    refine ⟨g', .line (first.lineEvaluates g) values, fun name => ?_⟩
    rw [lookups, lastDefinition_cons]
    by_cases hname : name = d.1
    · rw [hname, Finmap.lookup_insert]
      cases lastDefinition defs d.1 <;> simp
    · rw [Finmap.lookup_insert_of_ne _ hname]
      simp [hname]

def Correspondence.within (N : Set String) : Correspondence where
  rel n m := n = m ∧ n ∈ N
  functional h h' := h.1.symm.trans h'.1
  injective h h' := h.1.trans h'.1.symm
  special h := by rw [h.1]

section within

variable {N : Set String}

theorem within_rel {n m : String} : (Correspondence.within N).rel n m ↔ n = m ∧ n ∈ N := Iff.rfl

theorem Matches.eq_of_within {v w : View} (h : Matches (.within N) v w) : v = w := by
  induction h with
  | sym names => rw [(within_rel.1 names).1]
  | closure _ _ _ ihParams ihBody ihLocals =>
    cases ihParams
    cases ihBody
    cases ihLocals
    rfl
  | cons _ _ ihCar ihCdr =>
    cases ihCar
    cases ihCdr
    rfl
  | bind names _ _ ihValue ihOthers =>
    cases ihValue
    cases ihOthers
    rw [(within_rel.1 names).1]
  | frame _ _ ihFirst ihOthers =>
    cases ihFirst
    cases ihOthers
    rfl
  | _ => rfl

theorem Alike.eq_of_within {x y : PureValue} (h : Alike (.within N) x y) : x = y := by
  cases h with
  | value values =>
    cases values.eq_of_within
    rfl
  | noValue names => rw [(within_rel.1 names).1]
  | noFunction operands _ _ =>
    cases operands.eq_of_within
    rfl

theorem Matches.within_of_mentioned {d : Datum} (errorFree : ErrorFree d)
    (names : ∀ name ∈ mentioned d, name ∈ N) :
    Matches (.within N) (.value (d.map Atom.toPure)) (.value (d.map Atom.toPure)) := by
  have same := @of_rename (.within N) id d errorFree fun name h => ⟨rfl, names name h⟩
  rwa [Sexp.map_rename_id] at same

theorem globalFunction_matches {tail : Datum} (errorFree : ErrorFree tail)
    (names : ∀ name ∈ mentioned tail, name ∈ N) :
    Matches (.within N) (.value (globalFunction tail)) (.value (globalFunction tail)) := by
  have forms := Matches.within_of_mentioned errorFree names
  exact .closure forms.car forms.cdr .noFrames

end within

section programs

variable {N : Set String} {P Q S : List String} {defs defs' : List Definition}

/-- The values of a program after definitions are its values after others whose last definitions are
the same. -/
theorem evaluates_after (hP : List.Forall₂ Defines P defs) (hQ : List.Forall₂ Defines Q defs')
    (program : ∀ line ∈ S, ReadsWithin N line) (closed : ClosedUnder N defs)
    (same : ∀ x ∈ N, lastDefinition defs x = lastDefinition defs' x) {xs : List PureValue}
    {g : Globals} (h : LinesEvaluate (.ofBindings coreBindings) (P ++ S) xs g) :
    ∃ ys g', LinesEvaluate (.ofBindings coreBindings) (Q ++ S) ys g' ∧
      xs.drop P.length = ys.drop Q.length := by
  obtain ⟨gP, valuesP, lookupsP⟩ := definitions_evaluate hP (.ofBindings coreBindings)
  obtain ⟨gQ, valuesQ, lookupsQ⟩ := definitions_evaluate hQ (.ofBindings coreBindings)
  obtain ⟨us, vs, gP', first, last, rfl⟩ := LinesEvaluate.append_iff.1 h
  obtain ⟨rfl, rfl⟩ := first.unique valuesP
  have globals : GlobalsMatch (.within N) gP' gQ := by
    rintro n _ ⟨rfl, hn⟩
    rw [lookupsP, lookupsQ, ← same n hn]
    cases hlast : lastDefinition defs n with
    | none => exact GlobalsMatch.core (fun n m names b _ => by rw [names.1]) n n ⟨rfl, hn⟩
    | some tail =>
      exact .some (globalFunction_matches (errorFree_of_lastDefinition hP tail hlast)
        (closed n hn tail hlast))
  have lines : List.Forall₂ (LinesMatch (.within N)) S S := by
    refine List.forall₂_same.2 fun line hline => ?_
    obtain ⟨d, rest, reads, names⟩ := program line hline
    exact ⟨d, rest, d, rest, reads, reads, .within_of_mentioned reads.isErrorFree names⟩
  obtain ⟨ys, g', values, alike, -⟩ := last.matched lines globals
  have equal : vs = ys := by
    rw [← List.forall₂_eq_eq_eq]
    exact alike.imp fun _ _ h => h.eq_of_within
  refine ⟨_, g', LinesEvaluate.append_iff.2 ⟨_, ys, gQ, valuesQ, values, rfl⟩, ?_⟩
  rw [List.drop_left' valuesP.length_eq, List.drop_left' valuesQ.length_eq, equal]

/-- A session terminates exactly if its lines have values in the reference semantics. -/
theorem terminates_iff {lines : List String} :
    Terminates lines ↔ ∃ xs g, LinesEvaluate (.ofBindings coreBindings) lines xs g :=
  newSession_iff fun _ => reports_rep

theorem indistinguishable (hP : List.Forall₂ Defines P defs) (hQ : List.Forall₂ Defines Q defs')
    (program : ∀ line ∈ S, ReadsWithin N line) (closed : ClosedUnder N defs)
    (same : ∀ x ∈ N, lastDefinition defs x = lastDefinition defs' x) :
    Indistinguishable P Q S := by
  have closed' : ClosedUnder N defs' := fun x hx tail htail =>
    closed x hx tail (same x hx ▸ htail)
  refine ⟨?_, fun width depth outs s width' depth' outs' s' run run' => ?_⟩
  · rw [terminates_iff, terminates_iff]
    constructor
    · rintro ⟨xs, g, h⟩
      obtain ⟨ys, g', h', -⟩ := evaluates_after hP hQ program closed same h
      exact ⟨ys, g', h'⟩
    · rintro ⟨xs, g, h⟩
      obtain ⟨ys, g', h', -⟩ :=
        evaluates_after hQ hP program closed' (fun x hx => (same x hx).symm) h
      exact ⟨ys, g', h'⟩
  · obtain ⟨xs, g, h, texts⟩ := newSession_sound (fun _ => reports_rep) run
    obtain ⟨ys, g', h', texts'⟩ := newSession_sound (fun _ => reports_rep) run'
    obtain ⟨zs, g'', h'', equal⟩ := evaluates_after hP hQ program closed same h
    obtain ⟨rfl, -⟩ := h''.unique h'
    have written {outs : List String} {xs : List PureValue}
        (h : List.Forall₂ (fun out x => out = x.written pureSpelling) outs xs) :
        outs = xs.map (·.written pureSpelling) := by
      rw [← List.forall₂_eq_eq_eq, List.forall₂_map_right_iff]
      exact h
    rw [written texts, written texts', ← List.map_drop, ← List.map_drop, equal]

end programs

/-- Only the last definitions of the names that a program can come to matter to it: definitions of
different names commute, a definition that is overwritten later is not seen, and neither is one of a
name that the program does not come to. -/
theorem only_last_definitions_matter {S : List String} {N : Set String}
    (program : ∀ line ∈ S, ReadsWithin N line) :
    (∀ P Q defs defs', List.Forall₂ Defines P defs → List.Forall₂ Defines Q defs' →
      ClosedUnder N defs → (∀ x ∈ N, lastDefinition defs x = lastDefinition defs' x) →
      Indistinguishable P Q S) ∧
    (∀ P R defs others line line' d e, List.Forall₂ Defines P defs →
      List.Forall₂ Defines R others → Defines line d → Defines line' e → d.1 ≠ e.1 →
      Indistinguishable (P ++ line :: line' :: R) (P ++ line' :: line :: R) S) ∧
    (∀ P Q R defs between others line line' d e, List.Forall₂ Defines P defs →
      List.Forall₂ Defines Q between → List.Forall₂ Defines R others →
      Defines line d → Defines line' e → d.1 = e.1 →
      Indistinguishable (P ++ line :: (Q ++ line' :: R)) (P ++ (Q ++ line' :: R)) S) ∧
    ∀ P R defs others line d, List.Forall₂ Defines P defs → List.Forall₂ Defines R others →
      Defines line d → ClosedUnder N (defs ++ others) → d.1 ∉ N →
      Indistinguishable (P ++ line :: R) (P ++ R) S := by
  have readable : ∀ line ∈ S, ReadsWithin Set.univ line := fun line hline => by
    obtain ⟨d, rest, reads, -⟩ := program line hline
    exact ⟨d, rest, reads, fun _ _ => trivial⟩
  have all (defs : List Definition) : ClosedUnder Set.univ defs := fun _ _ _ _ _ _ => trivial
  refine ⟨fun P Q defs defs' hP hQ closed same => indistinguishable hP hQ program closed same,
    ?_, ?_, ?_⟩
  · intro P R defs others line line' d e hP hR hd he different
    exact indistinguishable (List.rel_append hP (.cons hd (.cons he hR)))
      (List.rel_append hP (.cons he (.cons hd hR))) readable (all _)
      fun x _ => lastDefinition_swap different x
  · intro P Q R defs between others line line' d e hP hQ hR hd he same
    exact indistinguishable (List.rel_append hP (.cons hd (List.rel_append hQ (.cons he hR))))
      (List.rel_append hP (List.rel_append hQ (.cons he hR))) readable (all _)
      fun x _ => lastDefinition_overwritten same x
  · intro P R defs others line d hP hR hd closed unmentioned
    have same : ∀ x ∈ N,
        lastDefinition (defs ++ d :: others) x = lastDefinition (defs ++ others) x :=
      fun x hx => lastDefinition_of_ne fun e => unmentioned (e ▸ hx)
    exact indistinguishable (List.rel_append hP (.cons hd hR)) (List.rel_append hP hR) program
      (fun x hx tail htail => closed x hx tail (same x hx ▸ htail)) same

theorem Defines.of_firstForm? {line : String} {d : Definition} (h : firstForm? line = some d.form)
    (errorFree : ErrorFree d.form) : Defines line d := reads_of_firstForm? h errorFree

section call

private def symbol (name : String) : Datum := .atom (.sym name)

private def list (ds : List Datum) : Datum := .ofList .nil ds

private def caller : Definition := ("f", list [list [symbol "x"], list [symbol "g", symbol "x"]])

private def callee : Definition := ("g", list [list [symbol "x"], .atom .nil])

private def overwritten : Definition := ("g", list [list [symbol "x"], symbol "x"])

private def bystander : Definition := ("h", list [.atom .nil, list [symbol "h"]])

private def relevant : List String := ["f", "g", "x", "a", "quote"]

/-- A function that calls another one, which is defined twice, and a name that is not called. -/
theorem only_last_definitions_matter_call : ∃ N : Set String, "h" ∉ N ∧
    (∀ line ∈ ["(f 'a)"], ReadsWithin N line) ∧
    Indistinguishable ["(defun g (x) x)", "(defun f (x) (g x))", "(defun g (x) nil)"]
      ["(defun g (x) nil)", "(defun h () (h))", "(defun f (x) (g x))"] ["(f 'a)"] ∧
    Indistinguishable ["(defun f (x) (g x))", "(defun g (x) nil)"]
      ["(defun g (x) nil)", "(defun f (x) (g x))"] ["(f 'a)"] ∧
    Indistinguishable ["(defun g (x) x)", "(defun f (x) (g x))", "(defun g (x) nil)"]
      ["(defun f (x) (g x))", "(defun g (x) nil)"] ["(f 'a)"] ∧
    Indistinguishable ["(defun h () (h))", "(defun f (x) (g x))"]
      ["(defun f (x) (g x))"] ["(f 'a)"] := by
  have hf : Defines "(defun f (x) (g x))" caller := .of_firstForm? (by decide +kernel) (by decide)
  have hg : Defines "(defun g (x) x)" overwritten := .of_firstForm? (by decide +kernel) (by decide)
  have hg' : Defines "(defun g (x) nil)" callee := .of_firstForm? (by decide +kernel) (by decide)
  have hh : Defines "(defun h () (h))" bystander := .of_firstForm? (by decide +kernel) (by decide)
  have program : ∀ line ∈ ["(f 'a)"], ReadsWithin {x | x ∈ relevant} line := by
    obtain ⟨rest, reads⟩ := @reads_of_firstForm? "(f 'a)"
      (list [symbol "f", quoted (symbol "a")]) (by decide +kernel) (by decide)
    have names : ∀ name ∈ mentioned (list [symbol "f", quoted (symbol "a")]), name ∈ relevant := by
      decide
    exact List.forall_mem_singleton.2 ⟨_, rest, reads, names⟩
  have closed : ∀ x ∈ relevant, ∀ tail ∈ lastDefinition [overwritten, caller, callee] x,
      ∀ name ∈ mentioned tail, name ∈ relevant := by decide
  have closed' : ∀ x ∈ relevant, ∀ tail ∈ lastDefinition [caller] x,
      ∀ name ∈ mentioned tail, name ∈ relevant := by decide
  have same : ∀ x ∈ relevant, lastDefinition [overwritten, caller, callee] x =
      lastDefinition [callee, bystander, caller] x := by decide
  have unmentioned : "h" ∉ relevant := by decide
  have both := only_last_definitions_matter program
  refine ⟨{x | x ∈ relevant}, unmentioned, program, ?_, ?_, ?_, ?_⟩
  · exact both.1 _ _ _ _ (.cons hg (.cons hf (.cons hg' .nil)))
      (.cons hg' (.cons hh (.cons hf .nil))) closed same
  · exact both.2.1 [] [] [] [] "(defun f (x) (g x))" "(defun g (x) nil)" caller callee .nil .nil
      hf hg' (by decide)
  · exact both.2.2.1 [] ["(defun f (x) (g x))"] [] [] [caller] [] "(defun g (x) x)"
      "(defun g (x) nil)" overwritten callee .nil (.cons hf .nil) .nil hg hg' rfl
  · exact both.2.2.2 [] ["(defun f (x) (g x))"] [] [caller] "(defun h () (h))" bystander .nil
      (.cons hf .nil) hh closed' unmentioned

end call

end PocketLisp
