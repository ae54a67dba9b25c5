import PocketLisp.Proofs.StoredErrors

/-!
# Lines that fault

A line faults if and only if its first form cannot be read because of an overlong numeral. Then the
session has nothing but the names in front of that numeral, which have become symbols. No line is a
misuse of a value or lacks a frame for a definition, so the answer that guards against misuse is the
answer itself.
-/
namespace PocketLisp

theorem Stops.starts {text token : List Char} {ds : List Datum} (h : Stops text ds token) :
    ∃ c u, skipBlanks text = c :: u ∧ c ≠ ')' := by
  cases h with
  | token blank run ends overlong =>
    obtain ⟨c, token, rfl⟩ := List.exists_cons_of_ne_nil overlong.ne_nil
    have hc := run c (by simp)
    refine ⟨c, _, skipBlanks_append_cons blank (not_isBlank_of_not_isDelimiter hc), fun e => ?_⟩
    rw [e] at hc
    cases hc
  | list blank _ => exact ⟨'(', _, skipBlanks_append_cons blank (by decide), by decide⟩
  | quote blank _ => exact ⟨'\'', _, skipBlanks_append_cons blank (by decide), by decide⟩

theorem Reads.isClassified {text rest : List Char} {d : Datum} (h : Reads Converts text d rest) :
    Reads Classified text d rest :=
  h.imp fun _ _ _ atom => classified_iff.2 atom

/-- What has been read as the grammar has it has entered the names that it mentions. -/
theorem Reads.enters {bound text text' rest rest' : List Char} {names names' : List String}
    {d : Datum} {fits : text'.length ≤ bound.length + 1} {short : rest'.length ≤ bound.length}
    (h : Reads Converts text d rest)
    (read : readForm bound names text' fits = .form names' d rest' short) :
    Enters names names' [d] := by
  have follows := readForm_follows names fits
  rw [read] at follows
  rcases follows with ⟨-, enters⟩ | ⟨wrapped, -⟩
  · exact enters
  · exact absurd h.isErrorFree wrapped.not_errorFree

mutual

/-- Reading stops where the grammar comes to an overlong numeral. -/
theorem Stops.run {text token : List Char} {ds : List Datum} : Stops text ds token →
    ∀ (bound : List Char) (names : List String) (text' : List Char),
      skipBlanks text' = skipBlanks text → ∀ fits : text'.length ≤ bound.length + 1,
        ∃ names', readForm bound names text' fits = .overlong names' (unsigned token).length ∧
          Enters names names' ds
  | @Stops.token blanks token rest blank run ends overlong, bound, names, text', same, fits => by
    obtain ⟨htake, -⟩ := takeWhile_token run ends
    obtain ⟨c, token', rfl⟩ := List.exists_cons_of_ne_nil overlong.ne_nil
    have hc := run c (by simp)
    have hskip := same.trans (skipBlanks_append_cons blank (not_isBlank_of_not_isDelimiter hc))
    obtain ⟨short, hread⟩ := readForm_token names hskip hc fits
    refine ⟨names, hread.trans ?_, .refl names⟩
    have htake : (c :: (token'.append rest)).takeWhile (fun c => !isDelimiter c) = c :: token' :=
      htake
    rw [readToken, htake, classify_eq_error_iff.2 ⟨overlong, rfl⟩]
  | .list blank items, bound, names, text', same, fits => by
    have hskip := same.trans (skipBlanks_append_cons blank (by decide))
    obtain ⟨names', hread, enters⟩ := items.run bound names []
      (Nat.le_trans (Nat.le_of_lt (length_lt_of_skipBlanks_eq hskip)) fits)
    exact ⟨names', (readForm_open hskip fits).trans hread, enters⟩
  | .quote blank form, bound, names, text', same, fits => by
    have hskip := same.trans (skipBlanks_append_cons blank (by decide))
    obtain ⟨names', hread, enters⟩ := form.run bound names _ rfl
      (Nat.le_trans (Nat.le_of_lt (length_lt_of_skipBlanks_eq hskip)) fits)
    refine ⟨names', ?_, enters⟩
    rw [readForm_quote hskip fits, hread]

theorem ItemsStop.run {text token : List Char} {ds : List Datum} : ItemsStop text ds token →
    ∀ (bound : List Char) (names : List String) (items : List Datum)
      (fits : text.length ≤ bound.length + 1), ∃ names',
        readItems bound names items text fits = .overlong names' (unsigned token).length ∧
          Enters names names' ds
  | .here first, bound, names, items, fits => by
    obtain ⟨c, u, hskip, close⟩ := first.starts
    have same : skipBlanks (c :: u) = skipBlanks text :=
      (skipBlanks_append_cons (List.forall_mem_nil _) (not_isBlank_of_skipBlanks hskip)).trans
        hskip.symm
    obtain ⟨names', hread, enters⟩ := first.run u names (c :: u) same (Nat.le_refl _)
    refine ⟨names', ?_, enters⟩
    rw [readItems_item hskip close fits, hread]
  | @ItemsStop.later text middle token d ds first others, bound, names, items, fits => by
    obtain ⟨noError, c, u, hskip, close⟩ := first.isClassified.starts
    have same : skipBlanks (c :: u) = skipBlanks text :=
      (skipBlanks_append_cons (List.forall_mem_nil _) (not_isBlank_of_skipBlanks hskip)).trans
        hskip.symm
    obtain ⟨names', short, hread⟩ := first.isClassified.run u names (c :: u) same (Nat.le_refl _)
    obtain ⟨names'', hitems, enters⟩ := others.run bound names' (d :: items) (Nat.le_trans short
      (Nat.le_trans (Nat.le_of_lt (length_lt_of_skipBlanks_eq hskip)) fits))
    refine ⟨names'', ?_, (first.enters hread).trans enters⟩
    rw [readItems_item hskip close fits, hread]
    simp only [noError]
    exact hitems

end

mutual

theorem Stops.named {text token : List Char} {ds : List Datum} :
    Stops text ds token → ∀ d ∈ ds, Named d
  | .token _ _ _ _ => List.forall_mem_nil _
  | .list _ items => items.named
  | .quote _ form => form.named

theorem ItemsStop.named {text token : List Char} {ds : List Datum} :
    ItemsStop text ds token → ∀ d ∈ ds, Named d
  | .here first => first.named
  | .later first others => List.forall_mem_cons.2 ⟨first.named, others.named⟩

end

theorem Named.mentioned {d : Datum} (h : Named d) : "nil" ∉ mentioned d := by
  induction d with
  | atom a =>
    cases a with
    | sym name => exact fun hmem => h (congrArg _ (List.mem_singleton.1 hmem).symm)
    | _ => exact List.not_mem_nil
  | cons a d iha ihd => exact fun hmem => (List.mem_append.1 hmem).elim (iha h.1) (ihd h.2)

namespace Store
variable {s : Store} {table : Nat}

theorem isInterned_intern (hT : table < s.tables.size) (name n : String) :
    (s.intern table name).2.isInterned table n = true ↔
      s.isInterned table n = true ∨ (n = name ∧ name ≠ "nil") := by
  by_cases hnil : name = "nil"
  · simp [intern, hnil]
  · cases hfind : s.findSymbol? table name with
    | some sym =>
      rw [intern_of_findSymbol? hfind hnil]
      constructor
      · exact .inl
      · rintro (h | ⟨rfl, -⟩)
        · exact h
        · simp [isInterned, hfind]
    | none =>
      rw [intern_of_none hfind hnil]
      by_cases hn : name = n
      · subst hn
        simp [isInterned, findSymbol?, symbols, Array.getElem_modify, hT, hnil]
      · simp [isInterned, findSymbol?, symbols, Array.getElem_modify, hT, hn, Ne.symm hn]

theorem isInterned_internAll (hT : table < s.tables.size) (names : List String) (n : String) :
    (s.internAll table names).isInterned table n = true ↔
      s.isInterned table n = true ∨ (n ∈ names ∧ n ≠ "nil") := by
  induction names generalizing s with
  | nil => simp [internAll]
  | cons name names ih =>
    have hT' : table < (s.intern table name).2.tables.size := by
      rw [(s.addsData_intern table name).tableCount]
      exact hT
    have hcons : s.internAll table (name :: names) =
        (s.intern table name).2.internAll table names :=
      rfl
    rw [hcons, ih hT', isInterned_intern hT, List.mem_cons]
    by_cases hn : n = name
    · subst hn
      tauto
    · tauto

theorem cells_internAll (s : Store) (table : Nat) (names : List String) :
    (s.internAll table names).cells = s.cells := by
  induction names generalizing s with
  | nil => rfl
  | cons name names ih => exact (ih _).trans (cells_intern s table name)

end Store

/-- Reading up to an overlong numeral enters the names in front of it, and does nothing else. -/
theorem Stops.read {table : Nat} {text token : List Char} {ds : List Datum} {s : Store}
    (h : Stops text ds token) (hT : table < s.tables.size) : ∃ s',
      PocketLisp.read table text s = .error (.fault (.overlong (unsigned token).length)) s' ∧
      s'.cells = s.cells ∧ s'.closures = s.closures ∧
      (∀ t name sym, s.findSymbol? t name = some sym → s'.findSymbol? t name = some sym) ∧
      ∀ name, s'.isInterned table name = true ↔
        s.isInterned table name = true ∨ ∃ d ∈ ds, name ∈ mentioned d := by
  obtain ⟨names, hform, enters⟩ := h.run text [] text rfl (Nat.le_succ _)
  have adds := s.addsData_internAll table names.reverse
  refine ⟨_, read_of_overlong hform s, s.cells_internAll table _, adds.sameClosures,
    adds.symbols, fun name => ?_⟩
  have noNil : (∃ d ∈ ds, name ∈ mentioned d) → name ≠ "nil" := by
    rintro ⟨d, hd, hmem⟩ rfl
    exact (h.named d hd).mentioned hmem
  rw [Store.isInterned_internAll hT, List.mem_reverse, enters name]
  simp only [List.not_mem_nil, false_or]
  rw [and_iff_left_of_imp noNil]

/-- Reading faults at an overlong numeral only. -/
theorem stops_of_read {table : Nat} {text : List Char} {stop : Stop} {s s' : Store}
    (h : read table text s = .error stop s') : ∃ ds token, Stops text ds token := by
  obtain ⟨names, digits, hform, -, -⟩ := read_eq_error h
  have follows := readForm_follows [] (Nat.le_succ text.length)
  rw [hform] at follows
  obtain ⟨ds, token, stops, -⟩ := follows
  exact ⟨ds, token, stops⟩

/-- Where a line has an answer, the answer that guards against misuse is the same. -/
theorem Engine.reply_of_rep {e : Engine} {env : Env} {line out : String} {s s' : Store}
    (h : e.rep env line s = .ok out s') :
    ∃ reply, e.reply env line s = .ok reply s' ∧ reply.text = out := by
  rw [Engine.rep, Run.bind_eq_ok_iff] at h
  obtain ⟨t, s₁, transcript, hout⟩ := h
  cases hout
  have attempt : (e.transcribe env line).attempt s = .ok (.ok t) s' := by
    simp only [Run.attempt, transcript]
  exact ⟨.value t, Run.bind_apply_of_ok attempt _, rfl⟩

/-- In a session, a line faults exactly if it cannot be read, with the same fault, and it cannot be
read exactly if the scan of its first form meets an overlong numeral. Then all cells and closures
are as before, and so are the symbols, but for those that the data in front of the numeral mention.
Where a line has an answer, so has the guarded line, and their texts are the same. -/
theorem Served.fault_iff {root : Env} {s : Store} (h : Served root s) (width depth : Nat)
    (line : String) :
    (∀ f s', (Engine.core width depth).rep root line s = .error (.fault f) s' ↔
      read root.table line.toList s = .error (.fault f) s') ∧
    ((∃ f s', read root.table line.toList s = .error (.fault f) s') ↔
      ∃ ds token, Stops line.toList ds token) ∧
    (∀ ds token, Stops line.toList ds token → ∃ s',
      read root.table line.toList s = .error (.fault (.overlong (unsigned token).length)) s' ∧
      s'.cells = s.cells ∧ s'.closures = s.closures ∧
      (∀ t name sym, s.findSymbol? t name = some sym → s'.findSymbol? t name = some sym) ∧
      ∀ name, s'.isInterned root.table name = true ↔
        s.isInterned root.table name = true ∨ ∃ d ∈ ds, name ∈ mentioned d) ∧
    ∀ out s', (Engine.core width depth).rep root line s = .ok out s' →
      ∃ reply, (Engine.core width depth).reply root line s = .ok reply s' ∧ reply.text = out := by
  have reached := h.reached
  obtain ⟨global, situated⟩ := reached.situated
  have refused : ∀ ds token, Stops line.toList ds token → ∃ s',
      read root.table line.toList s = .error (.fault (.overlong (unsigned token).length)) s' ∧
      s'.cells = s.cells ∧ s'.closures = s.closures ∧
      (∀ t name sym, s.findSymbol? t name = some sym → s'.findSymbol? t name = some sym) ∧
      ∀ name, s'.isInterned root.table name = true ↔
        s.isInterned root.table name = true ∨ ∃ d ∈ ds, name ∈ mentioned d :=
    fun ds token stops => stops.read situated.table
  refine ⟨fun f s' => ⟨reached.read_of_refusal, fun reading => ?_⟩, ⟨?_, ?_⟩, refused,
    fun out s' => Engine.reply_of_rep⟩
  · simp only [Engine.rep, Engine.transcribe]
    exact Run.bind_apply_of_error (Run.bind_apply_of_error reading _) _
  · rintro ⟨f, s', reading⟩
    exact stops_of_read reading
  · rintro ⟨ds, token, stops⟩
    obtain ⟨s', reading, -⟩ := refused ds token stops
    exact ⟨_, s', reading⟩

/-- A list in which an overlong numeral follows a symbol, in a fresh session. -/
theorem Served.fault_iff_overlong : ∃ root s line s', Served root s ∧
    (Engine.core 1 1).rep root line s = .error (.fault (.overlong 4301)) s' ∧
    s'.cells = s.cells ∧ s'.isInterned root.table "a" = true := by
  have cons : List.replicate 4301 '1' = '1' :: List.replicate 4300 '1' := List.replicate_succ
  have unsigned_eq : unsigned (List.replicate 4301 '1') = List.replicate 4301 '1' := by
    rw [cons]
    rfl
  have overlong : Overlong (List.replicate 4301 '1') := by
    rw [Overlong, isNumeral, unsigned_eq, List.length_replicate, List.all_replicate]
    decide
  have symbol : Reads Converts ('a' :: ' ' :: List.replicate 4301 '1') (.atom (.sym "a"))
      (' ' :: List.replicate 4301 '1') :=
    @Reads.atom _ [] ['a'] _ _ (by simp) (by simp) (not_isDelimiter_of_all (by decide))
      (endsToken_cons (by decide : isDelimiter ' ' = true) _)
      ⟨.sym (by decide) fun n h => absurd h (by decide), fun h => absurd h.1 (by decide)⟩
  have numeral : Stops (' ' :: List.replicate 4301 '1') [] (List.replicate 4301 '1') := by
    have token := @Stops.token [' '] (List.replicate 4301 '1') [] isBlank_space
      (fun c hc => by rw [List.eq_of_mem_replicate hc]; decide) (by simp [EndsToken]) overlong
    rwa [List.append_nil] at token
  have stops := @Stops.list [] _ _ _ (by simp) (.later symbol (.here numeral))
  have line : (String.ofList ('(' :: 'a' :: ' ' :: List.replicate 4301 '1')).toList =
      [] ++ '(' :: 'a' :: ' ' :: List.replicate 4301 '1' := String.toList_ofList
  have start := Served.start newSession_eq
  obtain ⟨same, -, refused, -⟩ := start.fault_iff 1 1
    (String.ofList ('(' :: 'a' :: ' ' :: List.replicate 4301 '1'))
  obtain ⟨s', reading, cells, -, -, interned⟩ := refused _ _ (line ▸ stops)
  rw [unsigned_eq, List.length_replicate] at reading
  have mentioned : "a" ∈ mentioned (.atom (.sym "a")) := List.mem_singleton.2 rfl
  exact ⟨_, _, _, s', start, (same _ _).2 reading, cells,
    (interned "a").2 (.inr ⟨_, List.mem_singleton.2 rfl, mentioned⟩)⟩

end PocketLisp
