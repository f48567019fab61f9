import AblResolve.Proofs.Trail
/-!
What becomes of fields. A field that is entered has one of four outcomes, and the index keeps
account of one of them only: it lists the fields that have been looked up in vain, in the order in
which they were entered, and reports those for which a table had been given.
-/
namespace AblResolve

namespace UnitIndex

/-- What the index notes about lookups: the names that stand for nothing, and the reports on fields
that a table does not have. -/
def misses (x : UnitIndex) : List Unresolved × List Diagnostic := (x.unresolved, x.fieldDiagnostics)

/-- The entries of a node in the list of unresolved names. -/
def unresolvedAt (x : UnitIndex) (m : NodeId) : List Unresolved := x.unresolved.filter (·.node = m)

end UnitIndex

namespace Walk

open UnitIndex ParseTree

/-- The entry for a field that has been looked up in vain. -/
def missOf (env : Env) (e : NodeId × Walk) : Unresolved := missedField env e.1 e.2

/-- The report on a field that has been looked up in vain; there is one if a hint pointed to a
buffer. -/
def reportOf (env : Env) (e : NodeId × Walk) : Option Diagnostic :=
  (e.2.hinted? (e.2.hintAt e.1)).bind fun b => (e.2.index.symbols.get? b).map fun s =>
    .unresolvedField (env.tree.text e.1) s.name (env.tree.location e.1)

/-! ### One node -/

section Enter

variable {env : Env} {n : NodeId} {w w' : Walk}

theorem Runs.misses (h : Runs env n w w') : w'.index.misses = w.index.misses := by
  induction h with
  | refl => rfl
  | tail _ step ih =>
    rw [← ih]
    rcases step with move | turn
    · cases move with
      | index change => exact Prod.ext change.unresolved change.fieldDiagnostics
      | _ => rfl
    · cases turn <;> rfl

theorem Refer.misses {ref : Reference} (h : Refer env n w ref w') :
    w'.index.misses = w.index.misses := by
  cases h with
  | field =>
    simp only [countedField]
    split <;> rfl
  | _ => rfl

/-- A vain lookup after moves adds the entry and the report of the field. -/
theorem Miss.misses {v : Walk} (hs : Sound w) (moves : Moves env n w v)
    (miss : Miss env n v (w.hintAt n) w') : w'.index.misses =
      (w.index.unresolved ++ [missOf env (n, w)],
        w.index.fieldDiagnostics ++ (reportOf env (n, w)).toList) := by
  have before := moves.runs.misses
  have hmiss : missedField env n v = missOf env (n, w) := by
    simp only [missOf, missedField, moves.scope]
  obtain ⟨hunresolved, hreports⟩ := Prod.ext_iff.1 before
  cases miss with
  | anywhere kind unhinted =>
    rw [Moves.hinted? env n moves] at unhinted
    refine Prod.ext ?_ ?_
    · exact congrArg₂ (· ++ [·]) hunresolved hmiss
    · have hreport : reportOf env (n, w) = none := by simp [reportOf, unhinted]
      rw [hreport]
      exact hreports.trans (List.append_nil _).symm
  | inTable kind hinted found strict =>
    rename_i b symbol
    rw [Moves.hinted? env n moves] at hinted
    obtain ⟨symbol₀, hsymbol₀⟩ := Arena.exists_get? (hs.hinted? hinted).1.lt_size
    obtain ⟨symbol', hsymbol', hfix⟩ := moves.runs.extends.symbols b symbol₀ hsymbol₀
    rw [found] at hsymbol'
    cases hsymbol'
    have hname : symbol.name = symbol₀.name := congrArg (·.1) hfix
    refine Prod.ext ?_ ?_
    · exact congrArg₂ (· ++ [·]) hunresolved hmiss
    · have hadd : UnitIndex.fieldDiagnostics { v.index with
          diagnostics := v.index.diagnostics.add
            (.unresolvedField (env.tree.text n) symbol.name (env.tree.location n)) } =
          v.index.fieldDiagnostics ++
            [.unresolvedField (env.tree.text n) symbol.name (env.tree.location n)] := by
        simp [UnitIndex.fieldDiagnostics, Diagnostics.withCode, Diagnostics.add,
          Diagnostic.unresolvedField]
      have hreport : reportOf env (n, w) =
          some (.unresolvedField (env.tree.text n) symbol.name (env.tree.location n)) := by
        simp [reportOf, hinted, hsymbol₀, hname]
      rw [hreport]
      exact hadd.trans (congrArg (· ++ _) hreports)

/-- What entering a field adds to the notes about lookups: nothing, unless it has been looked up in
vain. -/
theorem Resolves.misses {o : FieldOutcome} (hs : Sound w) (h : Resolves env n w w' o) :
    w'.index.misses = if o = .missing then
      (w.index.unresolved ++ [missOf env (n, w)],
        w.index.fieldDiagnostics ++ (reportOf env (n, w)).toList) else w.index.misses := by
  cases h with
  | input keyword moves | tolerated keyword lacks tolerant moves => exact moves.runs.misses
  | found keyword moves refer => exact refer.misses.trans moves.runs.misses
  | missing keyword moves miss => exact miss.misses hs moves

theorem Enters.misses (h : Enters env n w w') (hfield : env.tree.kind n ≠ .field) :
    w'.index.misses = w.index.misses := by
  cases h with
  | plain runs => exact runs.misses
  | refer moves expects refer => exact refer.misses.trans moves.runs.misses
  | miss moves miss => cases miss <;> exact absurd ‹_› hfield

theorem enter_resolves {plan : Plan env.tree n} (hs : Sound w) (hkind : env.tree.kind n = .field)
    (henter : enter env n w = .ok plan w') : ∃ o, Resolves env n w w' o := by
  rw [enter_field hkind] at henter
  exact ((ends_enterField_resolves env n hs hkind).ok henter).2.2

end Enter

/-! ### The whole walk -/

/-- The index notes the fields in `missed`, and these are the fields among the nodes in `es` that
have been looked up in vain. -/
structure Looked (env : Env) (es missed : List (NodeId × Walk)) (x : UnitIndex) : Prop where
  sublist : missed.Sublist es
  fields : ∀ e ∈ missed, env.tree.kind e.1 = .field
  misses : x.misses = (missed.map (missOf env), missed.filterMap (reportOf env))
  outcome : ∀ m v, (m, v) ∈ es → env.tree.kind m = .field → ∃ plan v' o,
    enter env m v = .ok plan v' ∧ Resolves env m v v' o ∧ ((m, v) ∈ missed ↔ o = .missing)

section Trail

variable {env : Env} {n : NodeId} {w₀ w w' : Walk} {es missed : List (NodeId × Walk)}
  {rs : List NodeId}

theorem Looked.of_misses {x y : UnitIndex} (h : Looked env es missed x)
    (same : y.misses = x.misses) : Looked env es missed y :=
  { h with misses := same.trans h.misses }

/-- What is known of the fields in `es` and of node `n`, when it has been entered after them. -/
theorem Looked.outcome_concat {plan : Plan env.tree n} {missed' : List (NodeId × Walk)}
    (h : Looked env es missed w.index) (henter : enter env n w = .ok plan w')
    (kept : ∀ e ∈ es, e ∈ missed' ↔ e ∈ missed)
    (last : env.tree.kind n = .field →
      ∃ o, Resolves env n w w' o ∧ ((n, w) ∈ missed' ↔ o = .missing)) :
    ∀ m v, (m, v) ∈ es ++ [(n, w)] → env.tree.kind m = .field → ∃ plan v' o,
      enter env m v = .ok plan v' ∧ Resolves env m v v' o ∧ ((m, v) ∈ missed' ↔ o = .missing) := by
  intro m v he hkind
  rcases List.mem_append.1 he with he | he
  · obtain ⟨plan', v', o, henter', resolves, hiff⟩ := h.outcome m v he hkind
    exact ⟨plan', v', o, henter', resolves, (kept _ he).trans hiff⟩
  · cases List.mem_singleton.1 he
    obtain ⟨o, resolves, hiff⟩ := last hkind
    exact ⟨plan, w', o, henter, resolves, hiff⟩

/-- A node that is not a field looked up in vain. -/
theorem Looked.pass {plan : Plan env.tree n} (h : Looked env es missed w.index)
    (new : n ∉ es.map (·.1)) (henter : enter env n w = .ok plan w')
    (same : w'.index.misses = w.index.misses)
    (last : env.tree.kind n = .field → ∃ o, Resolves env n w w' o ∧ o ≠ .missing) :
    Looked env (es ++ [(n, w)]) missed w'.index where
  sublist := h.sublist.trans (List.sublist_append_left _ _)
  fields := h.fields
  misses := same.trans h.misses
  outcome := by
    refine h.outcome_concat henter (fun _ _ => Iff.rfl) fun hfield => ?_
    obtain ⟨o, resolves, ho⟩ := last hfield
    exact ⟨o, resolves, iff_of_false (fun he => new (List.mem_map_of_mem (h.sublist.subset he))) ho⟩

/-- A field that is looked up in vain. -/
theorem Looked.miss {plan : Plan env.tree n} (h : Looked env es missed w.index)
    (new : n ∉ es.map (·.1)) (henter : enter env n w = .ok plan w')
    (hfield : env.tree.kind n = .field) (resolves : Resolves env n w w' .missing)
    (added : w'.index.misses = (w.index.unresolved ++ [missOf env (n, w)],
      w.index.fieldDiagnostics ++ (reportOf env (n, w)).toList)) :
    Looked env (es ++ [(n, w)]) (missed ++ [(n, w)]) w'.index where
  sublist := h.sublist.append (.refl _)
  fields e he := by
    rcases List.mem_append.1 he with he | he
    · exact h.fields e he
    · exact List.mem_singleton.1 he ▸ hfield
  misses := by
    obtain ⟨hunresolved, hreports⟩ := Prod.ext_iff.1 h.misses
    rw [added]
    refine Prod.ext ?_ ?_
    · rw [List.map_append]
      exact congrArg (· ++ _) hunresolved
    · rw [List.filterMap_append]
      refine congrArg₂ (· ++ ·) hreports ?_
      cases hreport : reportOf env (n, w) <;> simp [hreport]
  outcome := by
    refine h.outcome_concat henter (fun e he => ?_) fun _ => ⟨.missing, resolves, by simp⟩
    have hne : e ≠ (n, w) := by
      rintro rfl
      exact new (List.mem_map_of_mem he)
    simp [hne]

theorem Looked.enter {plan : Plan env.tree n} (h : Looked env es missed w.index) (hs : Sound w)
    (new : n ∉ es.map (·.1)) (henter : enter env n w = .ok plan w') :
    ∃ missed, Looked env (es ++ [(n, w)]) missed w'.index := by
  by_cases hfield : env.tree.kind n = .field
  · obtain ⟨o, resolves⟩ := enter_resolves hs hfield henter
    have hmisses := resolves.misses hs
    by_cases ho : o = .missing
    · subst ho
      exact ⟨_, h.miss new henter hfield resolves (hmisses.trans (if_pos rfl))⟩
    · exact ⟨_, h.pass new henter (hmisses.trans (if_neg ho)) fun _ => ⟨o, resolves, ho⟩⟩
  · have hmisses := ((ends_enter env n hs).ok henter).enters.misses hfield
    exact ⟨_, h.pass new henter hmisses fun hkind => absurd hkind hfield⟩

theorem Trail.looked (h : Trail env w₀ es rs w) (hs : Sound w₀) (nodup : (es.map (·.1)).Nodup)
    (clean : w₀.index.misses = ([], [])) : ∃ missed, Looked env es missed w.index := by
  induction h with
  | start => exact ⟨[], .slnil, by simp, clean, by simp⟩
  | enter trail entered ih =>
    obtain ⟨nodup, new⟩ := nodup_concat nodup
    obtain ⟨missed, looked⟩ := ih nodup
    exact looked.enter (trail.sound hs) new entered
  | tell _ tells ih =>
    obtain ⟨qualifiers, hints, rfl⟩ := tells.eq
    exact ih nodup
  | run _ runs _ ih => exact (ih nodup).imp fun _ looked => looked.of_misses runs.misses
  | use _ _ _ ih => exact (ih nodup).imp fun _ looked => looked.of_misses rfl
  | bind _ _ _ binds ih => exact (ih nodup).imp fun _ looked => looked.of_misses rfl

/-- In a list in which no node stands twice, a node picks out its entry. -/
theorem filter_node {l : List (NodeId × Walk)} (nodup : (l.map (·.1)).Nodup) {e : NodeId × Walk}
    (he : e ∈ l) : l.filter (·.1 = e.1) = [e] := by
  induction l with
  | nil => cases he
  | cons e' l ih =>
    rw [List.map_cons, List.nodup_cons] at nodup
    rcases List.mem_cons.1 he with rfl | he
    · have hrest : l.filter (·.1 = e.1) = [] := by
        refine List.filter_eq_nil_iff.2 fun e' he' heq => nodup.1 ?_
        rw [← of_decide_eq_true heq]
        exact List.mem_map_of_mem he'
      simp [hrest]
    · have hne : e'.1 ≠ e.1 := fun heq => nodup.1 (heq ▸ List.mem_map_of_mem he)
      simp [hne, ih nodup.2 he]

/-- The list of unresolved names has one entry for each field that was looked up in vain and none
for any other. -/
theorem Looked.unresolvedAt {x : UnitIndex} {m : NodeId} {v : Walk} (h : Looked env es missed x)
    (nodup : (es.map (·.1)).Nodup) (he : (m, v) ∈ es) (o : FieldOutcome)
    (hiff : (m, v) ∈ missed ↔ o = .missing) :
    x.unresolvedAt m = if o = .missing then [missOf env (m, v)] else [] := by
  have hunresolved : x.unresolved = missed.map (missOf env) := congrArg (·.1) h.misses
  have hfilter : x.unresolvedAt m = (missed.filter (·.1 = m)).map (missOf env) := by
    rw [UnitIndex.unresolvedAt, hunresolved, List.filter_map]
    rfl
  rw [hfilter]
  split
  · rename_i ho
    have keys : (missed.map (·.1)).Nodup := nodup.sublist (h.sublist.map _)
    rw [filter_node keys (hiff.2 ho)]
    rfl
  · rename_i ho
    rw [List.filter_eq_nil_iff.2, List.map_nil]
    intro e hmem heq
    have hsame : e ∈ es.filter (·.1 = m) := List.mem_filter.2 ⟨h.sublist.subset hmem, heq⟩
    rw [filter_node nodup he, List.mem_singleton] at hsame
    exact ho (hiff.1 (hsame ▸ hmem))

end Trail

/-! ### What is left of a field -/

/-- What is known of field `m` when the analysis is over, by its outcome. It was entered in state
`v` and left `v'`; `x` is the index of the unit and `a` what is written on the field. A field with
INPUT in a list may look tolerated, too, though its table has not been asked. -/
def FieldOutcome.Holds (env : Env) (m : NodeId) (v v' : Walk) (x : UnitIndex) (a : Annotation) :
    FieldOutcome → Prop
  | .input => env.tree.hasKeyword m .input = true ∧ a.qualifier = none ∧ x.unresolvedAt m = []
  | .found => a.symbol.isSome ∧ a.qualifier.isSome ∧ x.unresolvedAt m = []
  | .missing => x.unresolvedAt m = [⟨m, env.tree.text m, v.scope⟩] ∧ a.qualifier = none
  | .tolerated => Lacks env m v (v.hintAt m) ∧ isTolerant env m = true ∧ a.qualifier = none ∧
      x.unresolvedAt m = [] ∧ v'.index.diagnostics = v.index.diagnostics

section Outcome

variable {env : Env} {m : NodeId} {v v' : Walk} {x : UnitIndex} {a : Annotation}

/-- No two outcomes leave the same behind, unless the field has INPUT and its list would put up with
it. -/
theorem FieldOutcome.Holds.unique {o o' : FieldOutcome} (h : o.Holds env m v v' x a)
    (h' : o'.Holds env m v v' x a) (asked : o = .tolerated → env.tree.hasKeyword m .input = false)
    (asked' : o' = .tolerated → env.tree.hasKeyword m .input = false) : o = o' := by
  cases o <;> cases o' <;> simp_all [FieldOutcome.Holds]

theorem Resolves.asked {o : FieldOutcome} (h : Resolves env m v v' o) (tolerated : o = .tolerated) :
    env.tree.hasKeyword m .input = false := by
  cases h with
  | tolerated keyword => exact keyword
  | _ => cases tolerated

theorem Resolves.holds {o : FieldOutcome} (h : Resolves env m v v' o)
    (hkind : env.tree.kind m = .field) (clean : (v.notes.get m).qualifier = none)
    (written : meaning a = meaning (v'.notes.get m))
    (listed : x.unresolvedAt m = if o = .missing then [missOf env (m, v)] else []) :
    o.Holds env m v v' x a := by
  have hsymbol : a.symbol = (v'.notes.get m).symbol := congrArg (·.1) written
  have hqualifier : a.qualifier = (v'.notes.get m).qualifier := congrArg (·.2.1) written
  have kept : ∀ {u}, Moves env m v u → (u.notes.get m).qualifier = none := fun moves =>
    (moves.runs.qualifier hkind).trans clean
  cases h with
  | input keyword moves => exact ⟨keyword, hqualifier.trans (kept moves), by simpa using listed⟩
  | found keyword moves refer =>
    refine ⟨?_, ?_, by simpa using listed⟩
    · rw [hsymbol]
      cases refer
      simp
    · rw [hqualifier]
      cases refer
      simp
  | tolerated keyword lacks tolerant moves diagnostics =>
    exact ⟨lacks, tolerant, hqualifier.trans (kept moves), by simpa using listed, diagnostics⟩
  | missing keyword moves miss =>
    refine ⟨by simpa [missOf, missedField] using listed, hqualifier.trans ?_⟩
    rw [miss.notes]
    exact kept moves

end Outcome

end Walk

namespace CompilationUnit

open UnitIndex Walk

/-- Every field that is met has one outcome: it is not resolved because it means what a screen
shows, it stands for something, it is listed as unresolved, or, if it has no INPUT, it is passed
over because the list it stands in puts up with fields that the table does not have. The list of
unresolved names holds fields that have been met, each once and in the order of the walk, and those
whose lookup was in the buffer of a hint are reported, in the same order. -/
theorem analyze_ofTree_fields (catalog : Catalog) (types : TypeRegistry) (options : Options)
    (tree : ParseTree) {index : UnitIndex} {u : CompilationUnit}
    (hok : (ofTree tree).analyze catalog types options = (.ok index, u)) :
    let env : Env := { tree, catalog, types, options }
    let entered := unitEntries env (.blank tree.size)
    (∀ m v, (m, v) ∈ entered → tree.kind m = .field → ∃ plan v', enter env m v = .ok plan v' ∧
      ∃! o : FieldOutcome, o.Holds env m v v' index (u.notes.get m) ∧
        (o = .tolerated → tree.hasKeyword m .input = false)) ∧
    (entered.map (·.1)).Nodup ∧ (index.unresolved.map (·.node)).Nodup ∧
    ∃ missed : List (NodeId × Walk), missed.Sublist entered ∧
      (∀ e ∈ missed, tree.kind e.1 = .field) ∧ index.unresolved = missed.map (missOf env) ∧
      index.fieldDiagnostics = missed.filterMap (reportOf env) := by
  intro env entered
  obtain ⟨w, hw, rfl, rfl⟩ := analyze_ok catalog types options hok
  obtain ⟨rs, trail, -⟩ := visitUnit_trail hw
  have nodup := unitEntries_nodup env (.blank tree.size)
  obtain ⟨missed, looked⟩ := trail.looked (sound_start env _) nodup rfl
  have hunresolved : w.index.unresolved = missed.map (missOf env) := congrArg (·.1) looked.misses
  refine ⟨?_, nodup, ?_, missed, looked.sublist, looked.fields, hunresolved,
    congrArg (·.2) looked.misses⟩
  · intro m v he hkind
    obtain ⟨plan, v', o, henter, resolves, hiff⟩ := looked.outcome m v he hkind
    obtain ⟨-, fresh⟩ := fresh_of_mem_unitEntries he
    have apart : tree.kind m ≠ .identifier := by simp [hkind]
    have clean : (v.notes.get m).qualifier = none :=
      congrArg (·.2.1) (fresh m (.refl m) (.inr apart))
    have written := (visitUnit_settles hw m v plan v' he henter).2 m (.of_field hkind)
    have holds := resolves.holds hkind clean written (looked.unresolvedAt nodup he o hiff)
    exact ⟨plan, v', henter, o, ⟨holds, resolves.asked⟩, fun o' ⟨holds', asked⟩ =>
      holds'.unique holds asked resolves.asked⟩
  · have keys : (missed.map (·.1)).Nodup := nodup.sublist (looked.sublist.map _)
    rw [hunresolved, List.map_map]
    exact keys

/-- A temp-table with a field `f`. An EXCEPT list names `f` and two fields that the table lacks, one
of them with INPUT, and a list of keys names another; `x` is not the name of anything, and the last
field displayed is that of a screen. -/
def fieldSample : ParseTree := .ofRows [
  (0, .defineTempTable, ""), (1, .identifier, "tt"), (1, .tableField, ""), (3, .identifier, "f"),
  (0, .recordFunction, ""), (5, .record, "tt"), (0, .exceptPhrase, ""), (7, .field, "f"),
  (7, .field, "g"), (0, .keyFields, ""), (10, .field, "h"), (0, .displayStatement, ""),
  (12, .field, "x"), (12, .field, "f"), (14, .keyword .input, "INPUT"), (7, .field, "k"),
  (16, .keyword .input, "INPUT")]

/-- In the sample, two fields are listed as unresolved, one of them is reported, and each field has
one outcome. -/
theorem analyze_ofTree_fields_sample :
    let env : Env := { tree := fieldSample, catalog := {}, types := {}, options := {} }
    let entered := unitEntries env (.blank fieldSample.size)
    ∃ index u, (ofTree fieldSample).analyze {} {} {} = (.ok index, u) ∧
      index.unresolved.map (·.node) = [⟨11⟩, ⟨13⟩] ∧ index.fieldDiagnostics.length = 1 ∧
      ∀ m ∈ ([⟨8⟩, ⟨9⟩, ⟨11⟩, ⟨13⟩, ⟨14⟩, ⟨16⟩] : List NodeId), ∃ v plan v', (m, v) ∈ entered ∧
        enter env m v = .ok plan v' ∧
        ∃! o : FieldOutcome, o.Holds env m v v' index (u.notes.get m) ∧
          (o = .tolerated → fieldSample.hasKeyword m .input = false) := by
  intro env entered
  obtain ⟨index, hok, hunresolved, hreports⟩ :=
    exists_analyze_ok_and (u := ofTree fieldSample) {} {} {}
      (P := fun x => x.unresolved.map (·.node) = [⟨11⟩, ⟨13⟩] ∧ x.fieldDiagnostics.length = 1)
      (by decide +kernel)
  refine ⟨index, _, hok, hunresolved, hreports, fun m hm => ?_⟩
  have met : ∀ m ∈ ([⟨8⟩, ⟨9⟩, ⟨11⟩, ⟨13⟩, ⟨14⟩, ⟨16⟩] : List NodeId),
      m ∈ entered.map (·.1) ∧ fieldSample.kind m = .field := by
    decide +kernel
  obtain ⟨hmem, hkind⟩ := met m hm
  obtain ⟨⟨m, v⟩, he, rfl⟩ := List.mem_map.1 hmem
  obtain ⟨plan, v', henter, unique⟩ :=
    (analyze_ofTree_fields {} {} {} fieldSample hok).1 m v he hkind
  exact ⟨v, plan, v', he, henter, unique⟩

/-- In the sample, the field with INPUT in the EXCEPT list is not looked up, and its table does not
have it: two outcomes leave what it leaves. -/
theorem analyze_ofTree_fields_input :
    let env : Env := { tree := fieldSample, catalog := {}, types := {}, options := {} }
    ∃ index u v plan v', (ofTree fieldSample).analyze {} {} {} = (.ok index, u) ∧
      (⟨16⟩, v) ∈ unitEntries env (.blank fieldSample.size) ∧ fieldSample.kind ⟨16⟩ = .field ∧
      enter env ⟨16⟩ v = .ok plan v' ∧
      FieldOutcome.input.Holds env ⟨16⟩ v v' index (u.notes.get ⟨16⟩) ∧
      FieldOutcome.tolerated.Holds env ⟨16⟩ v v' index (u.notes.get ⟨16⟩) ∧
      ¬ ∃! o : FieldOutcome, o.Holds env ⟨16⟩ v v' index (u.notes.get ⟨16⟩) := by
  intro env
  obtain ⟨index, hok, unlisted⟩ := exists_analyze_ok_and (u := ofTree fieldSample) {} {} {}
    (P := fun x => x.unresolvedAt ⟨16⟩ = []) (by decide +kernel)
  have qualifier : (((ofTree fieldSample).analyze {} {} {}).2.notes.get ⟨16⟩).qualifier = none := by
    decide +kernel
  -- the state in which the field is entered, and what entering it reports
  have entered : (unitEntries env (.blank fieldSample.size)).any (fun e => e.1 = ⟨16⟩ &&
      (e.2.hinted? (e.2.hintAt ⟨16⟩)).any (fun b => (e.2.index.bufferField? b
        (Text.lastSegment (fieldSample.text ⟨16⟩))).isNone) &&
      match enter env ⟨16⟩ e.2 with
        | .ok _ v' => v'.index.diagnostics = e.2.index.diagnostics
        | .error _ _ => false) = true := by
    decide +kernel
  generalize ((ofTree fieldSample).analyze {} {} {}).2 = u at hok qualifier
  obtain ⟨⟨m, v⟩, he, facts⟩ := List.any_eq_true.1 entered
  simp only [Bool.and_eq_true, decide_eq_true_eq] at facts
  obtain ⟨⟨rfl, hint⟩, reports⟩ := facts
  obtain ⟨b, hinted, lacks⟩ := (Option.any_eq_true _ _).1 hint
  cases henter : enter env ⟨16⟩ v with
  | error f v' =>
    rw [henter] at reports
    cases reports
  | ok plan v' =>
    rw [henter] at reports
    have input : FieldOutcome.input.Holds env ⟨16⟩ v v' index (u.notes.get ⟨16⟩) :=
      ⟨by decide, qualifier, unlisted⟩
    have tolerated : FieldOutcome.tolerated.Holds env ⟨16⟩ v v' index (u.notes.get ⟨16⟩) :=
      ⟨⟨b, hinted, Option.isNone_iff_eq_none.1 lacks⟩, by decide, qualifier, unlisted,
        of_decide_eq_true reports⟩
    refine ⟨index, u, v, plan, v', hok, he, by decide, henter, input, tolerated, ?_⟩
    rintro ⟨o, -, unique⟩
    cases (unique _ input).trans (unique _ tolerated).symm

end CompilationUnit

end AblResolve
