import PocketLisp.Proofs.NameCorrespondences
import PocketLisp.Proofs.PrintedForms
import Mathlib.Data.Set.Function
import Mathlib.Logic.Equiv.Basic

/-!
# Sessions with other names

Names are opaque. When all names of the forms of a session are replaced by others, one to one, and
those of the special forms and of the core procedures stay, then the session goes as before, line by
line, and its values and errors have the other names in place of the first ones.
-/
namespace PocketLisp

def givenNames : List String := ["quote", "if", "lambda", "defun", "car", "cdr", "cons", "t"]

/-- A permutation of the readable names that keeps the given ones. -/
structure IsRenaming (r : String → String) : Prop where
  bijective : Set.BijOn r {n | ReadableName n} {n | ReadableName n}
  given : ∀ n ∈ givenNames, r n = n

/-- The lines hold forms, the one with the names of the other replaced. -/
def Renamed (r : String → String) (line line' : String) : Prop :=
  ∃ d rest rest', Reads Converts line.toList d rest ∧
    Reads Converts line'.toList (d.map (Atom.rename r)) rest'

section readable

theorem readableName_of_not_isNumeral {name : String} (nonempty : name.toList ≠ [])
    (run : name.toList.all (fun c => !isDelimiter c) = true) (notNil : name ≠ "nil")
    (noNumeral : isNumeral name.toList = false) : ReadableName name where
  nonempty := nonempty
  run := not_isDelimiter_of_all run
  notNil := notNil
  noNumber _ numeral := by simp [noNumeral] at numeral
  short numeral := by simp [noNumeral] at numeral

theorem readableName_of_given : ∀ n ∈ givenNames, ReadableName n := by
  have given : ∀ n ∈ givenNames, n.toList ≠ [] ∧ n.toList.all (fun c => !isDelimiter c) = true ∧
      n ≠ "nil" ∧ isNumeral n.toList = false := by decide
  intro n hn
  obtain ⟨nonempty, run, notNil, noNumeral⟩ := given n hn
  exact readableName_of_not_isNumeral nonempty run notNil noNumeral

theorem Converts.readable {token : List Char} {a : Atom} (h : Converts token a)
    (nonempty : token ≠ []) (run : ∀ c ∈ token, isDelimiter c = false) : a.Readable := by
  obtain ⟨atom, short⟩ := h
  cases atom with
  | num _ _ => trivial
  | nil _ => trivial
  | sym name noNumber =>
    refine ⟨by simpa using nonempty, by simpa using run, fun e => name ?_, by simpa using noNumber,
      fun numeral => ?_⟩
    · simpa using congrArg String.toList e
    · rw [String.toList_ofList] at numeral ⊢
      exact Nat.le_of_not_lt fun long => short ⟨numeral, long⟩

theorem Reads.readable {text rest : List Char} {d : Datum} (h : Reads Converts text d rest) :
    d.All Atom.Readable :=
  h.all (fun _ _ nonempty run atom => atom.readable nonempty run) trivial
    (readableName_of_given "quote" (by decide))

theorem readableName_of_mentioned {d : Datum} (h : d.All Atom.Readable) :
    ∀ n ∈ mentioned d, ReadableName n := by
  induction d with
  | atom a =>
    cases a with
    | sym name =>
      simp only [mentioned, Atom.names, List.mem_singleton, forall_eq]
      exact h
    | _ => simp [mentioned, Atom.names]
  | cons a d ihCar ihCdr =>
    simp only [mentioned, List.mem_append]
    rintro n (hn | hn)
    · exact ihCar h.1 n hn
    · exact ihCdr h.2 n hn

end readable

theorem Sexp.all_map {α β : Type} {p : α → Prop} {q : β → Prop} {f : α → β} {t : Sexp α}
    (h : t.All p) (himp : ∀ a, p a → q (f a)) : (t.map f).All q := by
  induction t with
  | atom a => exact himp a h
  | cons _ _ ihCar ihCdr => exact ⟨ihCar h.1, ihCdr h.2⟩

theorem Sexp.spine_map {α β : Type} (f : α → β) (t : Sexp α) :
    (t.map f).spine.2 = f t.spine.2 := by
  induction t with
  | atom a => rfl
  | cons _ _ _ ihCdr => exact ihCdr

theorem ProperLists.map {f : Atom → Atom} (hf : f .nil = .nil) {d : Datum} (h : ProperLists d) :
    ProperLists (d.map f) := by
  induction d with
  | atom a => trivial
  | cons a d ihCar ihCdr =>
    obtain ⟨car, cdr, last⟩ := h
    exact ⟨ihCar car, ihCdr cdr, by rw [Sexp.spine_map, last, hf]⟩

section names

variable {r : String → String} (h : IsRenaming r)
include h

theorem IsRenaming.eq_given_iff {n k : String} (hn : ReadableName n) (hk : k ∈ givenNames) :
    n = k ↔ r n = k := by
  constructor
  · rintro rfl
    exact h.given n hk
  · intro e
    exact h.bijective.injOn hn (readableName_of_given k hk) (e.trans (h.given k hk).symm)

def IsRenaming.correspondence : Correspondence where
  rel n m := ReadableName n ∧ m = r n
  functional hm hm' := hm.2.trans hm'.2.symm
  injective hn hn' := h.bijective.injOn hn.1 hn'.1 (hn.2.symm.trans hn'.2)
  special := by
    rintro n _ ⟨hn, rfl⟩
    have same : ∀ k ∈ givenNames, (n == k) = (r n == k) := fun k hk => by
      rw [Bool.eq_iff_iff, beq_iff_eq, beq_iff_eq]
      exact h.eq_given_iff hn hk
    simp only [keywords, List.lookup_cons, List.lookup_nil,
      same _ (by decide : "quote" ∈ givenNames), same _ (by decide : "if" ∈ givenNames),
      same _ (by decide : "lambda" ∈ givenNames), same _ (by decide : "defun" ∈ givenNames)]

theorem IsRenaming.core :
    GlobalsMatch h.correspondence (.ofBindings coreBindings) (.ofBindings coreBindings) := by
  refine .core ?_
  rintro n _ ⟨hn, rfl⟩ b hb
  have given : ∀ b ∈ coreBindings, b.1 ∈ givenNames := by simp [coreBindings, givenNames]
  exact h.eq_given_iff hn (given b hb)

/-- A form has a form with the other names, and this is the form of some line. -/
theorem IsRenaming.exists_renamed {line : String} {d : Datum} {rest : List Char}
    (reads : Reads Converts line.toList d rest) : ∃ line', Renamed r line line' := by
  have readable : (d.map (Atom.rename r)).All Atom.Readable := by
    refine Sexp.all_map reads.readable fun a ha => ?_
    cases a with
    | sym n => exact h.bijective.mapsTo ha
    | _ => exact ha
  have proper : ProperLists (d.map (Atom.rename r)) :=
    (reads.imp fun _ _ _ atom => atom.1).properLists.map rfl
  have written := (reads_render readable []).1 (.inl (by simp [EndsToken]))
  rw [(undot_of_properLists proper).1] at written
  refine ⟨String.ofList ((d.map (Atom.rename r)).render datumSpelling []), d, rest, [], reads, ?_⟩
  rw [String.toList_ofList]
  exact written.imp fun _ _ _ atom => classified_iff.1 atom

theorem Renamed.linesMatch {line line' : String} (renamed : Renamed r line line') :
    LinesMatch h.correspondence line line' := by
  obtain ⟨d, rest, rest', reads, reads'⟩ := renamed
  exact ⟨d, rest, _, rest', reads, reads', .of_rename reads.isErrorFree
    fun n hn => ⟨readableName_of_mentioned reads.readable n hn, rfl⟩⟩

end names

/-- A fresh session has values for all of the lines under all large enough bounds. -/
def HasValues (lines : List String) : Prop :=
  ∃ n vs s, ∀ width depth, n ≤ width → n ≤ depth →
    (Engine.core width depth).values lines Store.empty = .ok vs s

theorem hasValues_iff {lines : List String} :
    HasValues lines ↔ ∃ xs g, LinesEvaluate (.ofBindings coreBindings) lines xs g :=
  newSession_iff fun _ => reports_evalText

private theorem forall₂_both {α β γ δ : Type} {R : α → γ → Prop} {R' : β → δ → Prop}
    {T : γ → δ → Prop} {as : List α} {bs : List β} {cs : List γ} {ds : List δ}
    (h : List.Forall₂ T cs ds) (left : List.Forall₂ R as cs) (right : List.Forall₂ R' bs ds) :
    List.Forall₂ (fun a b => ∃ c d, R a c ∧ R' b d ∧ T c d) as bs := by
  induction h generalizing as bs with
  | nil =>
    cases left
    cases right
    exact .nil
  | cons first _ ih =>
    cases left with
    | cons a left =>
      cases right with
      | cons b right => exact .cons ⟨_, _, a, b, first⟩ (ih left right)

section sessions

variable {ρ : Correspondence} {lines lines' : List String}
  (core : GlobalsMatch ρ (.ofBindings coreBindings) (.ofBindings coreBindings))
include core

theorem hasValues_iff_of_match (same : List.Forall₂ (LinesMatch ρ) lines lines') :
    HasValues lines ↔ HasValues lines' := by
  rw [hasValues_iff, hasValues_iff]
  constructor
  · rintro ⟨xs, g, values⟩
    obtain ⟨ys, h, values', -⟩ := values.matched same core
    exact ⟨ys, h, values'⟩
  · rintro ⟨ys, h, values⟩
    have back : List.Forall₂ (LinesMatch ρ.symm) lines' lines :=
      same.flip.imp fun _ _ => LinesMatch.symm
    obtain ⟨xs, g, values', -⟩ := values.matched back core.symm
    exact ⟨xs, g, values'⟩

theorem values_alike_of_match (same : List.Forall₂ (LinesMatch ρ) lines lines')
    {width depth width' depth' : Nat} {vs vs' : List Value} {s s' : Store}
    (run : (Engine.core width depth).values lines Store.empty = .ok vs s)
    (run' : (Engine.core width' depth').values lines' Store.empty = .ok vs' s') :
    List.Forall₂ (fun v w => ∃ x y, Shows 0 0 s v (.value x) ∧ Shows 0 0 s' w (.value y) ∧
      Alike ρ x y) vs vs' := by
  obtain ⟨xs, g, values, shows⟩ := newSession_sound (fun _ => reports_evalText) run
  obtain ⟨ys, h, values', shows'⟩ := newSession_sound (fun _ => reports_evalText) run'
  obtain ⟨zs, h', values'', alike, -⟩ := values.matched same core
  obtain ⟨rfl, -⟩ := values''.unique values'
  exact forall₂_both alike shows shows'

end sessions

/-- Names are opaque: a session with other names in its forms has values for as many of its lines,
and these are the values and errors of the session with the other names in them. -/
theorem renamed_sessions_correspond {r : String → String} (h : IsRenaming r) {lines : List String}
    (readable : ∀ line ∈ lines, ∃ d rest, Reads Converts line.toList d rest) :
    (∃ lines', List.Forall₂ (Renamed r) lines lines') ∧
    ∀ lines', List.Forall₂ (Renamed r) lines lines' →
      (∀ k, HasValues (lines.take k) ↔ HasValues (lines'.take k)) ∧
      ∀ width depth vs s width' depth' vs' s',
        (Engine.core width depth).values lines Store.empty = .ok vs s →
        (Engine.core width' depth').values lines' Store.empty = .ok vs' s' →
        List.Forall₂ (fun v w => ∃ x y, Shows 0 0 s v (.value x) ∧ Shows 0 0 s' w (.value y) ∧
          Alike h.correspondence x y) vs vs' := by
  refine ⟨?_, fun lines' renamed => ?_⟩
  · induction lines with
    | nil => exact ⟨[], .nil⟩
    | cons line lines ih =>
      rw [List.forall_mem_cons] at readable
      obtain ⟨⟨d, rest, reads⟩, others⟩ := readable
      obtain ⟨line', first⟩ := h.exists_renamed reads
      obtain ⟨lines', renamed⟩ := ih others
      exact ⟨line' :: lines', .cons first renamed⟩
  · have same : List.Forall₂ (LinesMatch h.correspondence) lines lines' :=
      renamed.imp fun _ _ renamed => renamed.linesMatch h
    refine ⟨fun k => hasValues_iff_of_match h.core (List.forall₂_take k same), ?_⟩
    intro width depth vs s width' depth' vs' s' run run'
    exact values_alike_of_match h.core same run run'

/-- Two names that are not given may be exchanged. -/
theorem isRenaming_swap {a b : String} (ha : ReadableName a) (hb : ReadableName b)
    (ha' : a ∉ givenNames) (hb' : b ∉ givenNames) : IsRenaming (Equiv.swap a b) := by
  have maps : Set.MapsTo (Equiv.swap a b) {n | ReadableName n} {n | ReadableName n} := by
    intro n hn
    rw [Equiv.swap_apply_def]
    split
    · exact hb
    · split
      · exact ha
      · exact hn
  refine ⟨⟨maps, (Equiv.swap a b).injective.injOn, fun n hn => ?_⟩, fun n hn => ?_⟩
  · exact ⟨Equiv.swap a b n, maps hn, Equiv.swap_apply_self a b n⟩
  · refine Equiv.swap_apply_of_ne_of_ne ?_ ?_ <;> rintro rfl
    · exact ha' hn
    · exact hb' hn

theorem renamed_of_firstForm? {r : String → String} {line line' : String}
    (h : ∃ d ∈ firstForm? line, ErrorFree d ∧
      firstForm? line' = some (d.map (Atom.rename r))) : Renamed r line line' := by
  obtain ⟨d, form, errorFree, form'⟩ := h
  obtain ⟨rest, reads⟩ := reads_of_firstForm? form errorFree
  have errorFree' : ErrorFree (d.map (Atom.rename r)) :=
    Sexp.all_map errorFree fun a ha message => by
      cases a with
      | error m => exact absurd rfl (ha m)
      | _ => exact nofun
  obtain ⟨rest', reads'⟩ := reads_of_firstForm? form' errorFree'
  exact ⟨d, rest, rest', reads, reads'⟩

/-- A name without a value, a name that is called, and a function that quotes a name, with two names
exchanged. -/
theorem renamed_sessions_correspond_swap : ∃ r, ∃ h : IsRenaming r,
    (∀ line ∈ ["f", "('f)", "(defun f (x) (cons x 'g))", "(f 'f)"],
      ∃ d rest, Reads Converts line.toList d rest) ∧
    List.Forall₂ (Renamed r) ["f", "('f)", "(defun f (x) (cons x 'g))", "(f 'f)"]
      ["g", "('g)", "(defun g (x) (cons x 'f))", "(g 'g)"] ∧
    ∀ width depth vs s width' depth' vs' s',
      (Engine.core width depth).values ["f", "('f)", "(defun f (x) (cons x 'g))", "(f 'f)"]
        Store.empty = .ok vs s →
      (Engine.core width' depth').values ["g", "('g)", "(defun g (x) (cons x 'f))", "(g 'g)"]
        Store.empty = .ok vs' s' →
      List.Forall₂ (fun v w => ∃ x y, Shows 0 0 s v (.value x) ∧ Shows 0 0 s' w (.value y) ∧
        Alike h.correspondence x y) vs vs' := by
  have readableF : ReadableName "f" :=
    readableName_of_not_isNumeral (by decide) (by decide) (by decide) (by decide)
  have readableG : ReadableName "g" :=
    readableName_of_not_isNumeral (by decide) (by decide) (by decide) (by decide)
  have h := isRenaming_swap readableF readableG (by decide) (by decide)
  have renamed : List.Forall₂ (Renamed (Equiv.swap "f" "g"))
      ["f", "('f)", "(defun f (x) (cons x 'g))", "(f 'f)"]
      ["g", "('g)", "(defun g (x) (cons x 'f))", "(g 'g)"] :=
    .cons (renamed_of_firstForm? (by decide +kernel))
      (.cons (renamed_of_firstForm? (by decide +kernel))
        (.cons (renamed_of_firstForm? (by decide +kernel))
          (.cons (renamed_of_firstForm? (by decide +kernel)) .nil)))
  have readable : ∀ line ∈ ["f", "('f)", "(defun f (x) (cons x 'g))", "(f 'f)"],
      ∃ d rest, Reads Converts line.toList d rest := by
    intro line hline
    obtain ⟨line', -, d, rest, rest', reads, -⟩ := exists_of_mem_forall₂ renamed hline
    exact ⟨d, rest, reads⟩
  have correspond := (renamed_sessions_correspond h readable).2 _ renamed
  exact ⟨_, h, readable, renamed, correspond.2⟩

end PocketLisp
