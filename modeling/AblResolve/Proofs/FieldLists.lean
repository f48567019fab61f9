import AblResolve.Proofs.FieldOutcomes
import AblResolve.Proofs.Visibility
/-!
Fields in lists. The fields in a list of FIELDS, EXCEPT, USING, KEY-FIELDS or RELATION-FIELDS belong
to the table referred to just before the list, or before that one. The walk keeps track of the last
two records, and scopes have no part in it: a record may stand in a procedure that has been left by
the time its fields are listed. So the buffer is in sight from where the record stands; where the
list stands, that is so if the scope of the record is the current one or one around it.
-/
namespace AblResolve

namespace Walk

open UnitIndex ParseTree

/-- The records among the nodes in `es`, the last one first. -/
def records (env : Env) (es : List (NodeId × Walk)) : List (NodeId × Walk) :=
  (es.filter fun e => env.tree.kind e.1 = .record).reverse

/-- The record that a hint is about when the nodes in `es` have been entered. -/
def recalled (env : Env) (es : List (NodeId × Walk)) : TableHint → Option (NodeId × Walk)
  | .any => none
  | .last => (records env es)[0]?
  | .previous => (records env es)[1]?

/-- The record has been found to stand for the buffer, which is in sight from where it stands. -/
def StandsFor (env : Env) (e : NodeId × Walk) (b : SymbolId) : Prop :=
  ∃ plan w, enter env e.1 e.2 = .ok plan w ∧ (w.notes.get e.1).symbol = some b ∧
    w.index.Sees e.2.scope b

/-- What the hints point to when the nodes in `es` have been entered. -/
def Recalls (env : Env) (es : List (NodeId × Walk)) (w : Walk) : Prop :=
  ∀ h b, w.hinted? h = some b → ∃ e, recalled env es h = some e ∧ StandsFor env e b

section Trail

variable {env : Env} {n : NodeId} {w₀ w w' : Walk} {es : List (NodeId × Walk)} {rs : List NodeId}

/-- Only records change what the hints point to. -/
theorem Enters.hinted? (enters : Enters env n w w') (hkind : env.tree.kind n ≠ .record)
    (h : TableHint) : w'.hinted? h = w.hinted? h := by
  cases enters with
  | plain runs => exact Runs.hinted? runs h
  | refer moves expects refer =>
    rw [← Runs.hinted? moves.runs h]
    cases refer with
    | record bufferScope abbreviated kind => exact absurd kind hkind
    | _ => rfl
  | miss moves miss =>
    rw [← Runs.hinted? moves.runs h]
    cases miss <;> rfl

theorem records_concat (env : Env) (es : List (NodeId × Walk)) (e : NodeId × Walk) :
    records env (es ++ [e]) =
      if env.tree.kind e.1 = .record then e :: records env es else records env es := by
  unfold records
  split
  case isTrue kind => simp [List.filter_append, kind]
  case isFalse kind => simp [List.filter_append, kind]

theorem mem_of_recalled {h : TableHint} {e : NodeId × Walk} (he : recalled env es h = some e) :
    e ∈ es ∧ env.tree.kind e.1 = .record := by
  have hmem : e ∈ records env es := by
    cases h with
    | any => cases he
    | last | previous => exact List.mem_of_getElem? he
  simpa [records] using hmem

theorem Recalls.of_hinted? (recalls : Recalls env es w) (same : ∀ h, w'.hinted? h = w.hinted? h) :
    Recalls env es w' :=
  fun h b hb => recalls h b ((same h).symm.trans hb)

theorem Recalls.enter {plan : Plan env.tree n} (recalls : Recalls env es w) (hs : Sound w)
    (henter : enter env n w = .ok plan w') : Recalls env (es ++ [(n, w)]) w' := by
  have admitted := (ends_enter env n hs).ok henter
  by_cases hkind : env.tree.kind n = .record
  · -- the record comes last now, and what was last before it is the previous one
    have hrecords := (records_concat env es (n, w)).trans (if_pos hkind)
    obtain ⟨-, v, moves, refer⟩ := admitted.record hkind
    cases refer with
    | record bufferScope abbreviated kind isBuffer found sees attached binds bound =>
      rename_i b t table
      have stands : StandsFor env (n, w) b := by
        refine ⟨plan, _, henter, by simp, ?_⟩
        have hsv := moves.runs.sound hs
        rw [moves.scope] at sees
        exact sees.extends (extends_counted _ _ _) hsv.coherent.scopeTree
          (moves.scope ▸ hsv.scope_lt)
      intro h b' hb'
      cases h with
      | any => cases hb'
      | last =>
        cases hb'
        exact ⟨(n, w), by simp [recalled, hrecords], stands⟩
      | previous =>
        have hlast : w.hinted? .last = some b' := (Runs.hinted? moves.runs .last).symm.trans hb'
        obtain ⟨e, he, hstands⟩ := recalls .last b' hlast
        exact ⟨e, by simpa [recalled, hrecords] using he, hstands⟩
  · have hrecords := (records_concat env es (n, w)).trans (if_neg hkind)
    have kept := recalls.of_hinted? (Enters.hinted? admitted.enters hkind)
    intro h b hb
    obtain ⟨e, he, hstands⟩ := kept h b hb
    refine ⟨e, ?_, hstands⟩
    cases h with
    | any => cases he
    | last | previous => simpa [recalled, hrecords] using he

theorem Trail.recalls (trail : Trail env w₀ es rs w) (hs : Sound w₀)
    (clean : ∀ h, w₀.hinted? h = none) : Recalls env es w := by
  induction trail with
  | start =>
    intro h b hb
    rw [clean] at hb
    cases hb
  | enter before entered ih => exact ih.enter (before.sound hs) entered
  | tell _ tells ih =>
    obtain ⟨qualifiers, hints, rfl⟩ := tells.eq
    exact ih.of_hinted? fun h => by cases h <;> rfl
  | run _ runs _ ih => exact ih.of_hinted? (Runs.hinted? runs)
  | use _ _ _ ih => exact ih.of_hinted? fun h => by cases h <;> rfl
  | bind _ _ _ _ ih => exact ih.of_hinted? fun h => by cases h <;> rfl

/-- What a record has been found to stand for is written on it, and stays in sight from there. -/
theorem Settles.standsFor {r : NodeId} {vr : Walk} {b : SymbolId} (settles : Settles env es w)
    (he : (r, vr) ∈ es) (hs : Sound vr) (hkind : env.tree.kind r = .record)
    (stands : StandsFor env (r, vr) b) :
    (w.notes.get r).symbol = some b ∧ w.index.Sees vr.scope b := by
  obtain ⟨plan, vr', henter, hsymbol, sees⟩ := stands
  obtain ⟨ext, same⟩ := settles r vr plan vr' he henter
  have enters := ((ends_enter env r hs).ok henter).enters
  exact ⟨(congrArg (·.1) (same r (.of_record hkind))).trans hsymbol,
    sees.extends ext (enters.sound hs).coherent.scopeTree (enters.extends.lt_scopes hs.scope_lt)⟩

/-- A field that is found through a hint is one of the buffer that the hint points to. -/
theorem Resolves.hinted {b : SymbolId} (h : Resolves env n w w' .found)
    (hinted : w.hinted? (w.hintAt n) = some b) :
    env.tree.kind n = .field ∧
      ∃ s f, (w'.notes.get n).symbol = some s ∧ w'.index.asFieldBuffer? s = some ⟨b, f⟩ := by
  cases h with
  | found keyword moves refer =>
    have ext := refer.extends
    cases refer with
    | field store bufferScope unqualified abbreviated kind leads =>
      rename_i s
      have reaches := leads.reaches
      unfold Reaches at reaches
      rw [Moves.hinted? env n moves, hinted] at reaches
      obtain ⟨f, hf⟩ := reaches
      exact ⟨kind, s, f, by simp, ext.asFieldBuffer? hf⟩

end Trail

end Walk

namespace CompilationUnit

open UnitIndex Walk

/-- A field in a list that is found through a hint hangs off the buffer that the last record before
it stands for, or the one before that, as the hint says. The buffer is in sight from the scope that
was current at that record. So it is in sight from the field as well, if the scope of the record is
that of the field or one around it. -/
theorem analyze_hinted (catalog : Catalog) (types : TypeRegistry) (options : Options)
    (u : CompilationUnit) {index : UnitIndex} {u' : CompilationUnit}
    (hok : u.analyze catalog types options = (.ok index, u')) :
    let env : Env := { tree := u.tree, catalog, types, options }
    ∀ before m v after plan v' b, unitEntries env u.notes = before ++ (m, v) :: after →
      enter env m v = .ok plan v' → Resolves env m v v' .found →
      v.hinted? (v.hintAt m) = some b →
      ∃ s f r vr, (u'.notes.get m).symbol = some s ∧ index.asFieldBuffer? s = some ⟨b, f⟩ ∧
        recalled env before (v.hintAt m) = some (r, vr) ∧ (u'.notes.get r).symbol = some b ∧
        index.Sees vr.scope b ∧
        (vr.scope ∈ index.scopeChain v.scope → index.Sees v.scope b) := by
  intro env before m v after plan v' b hes henter resolves hinted
  obtain ⟨w, hw, rfl, rfl⟩ := analyze_ok catalog types options hok
  obtain ⟨rs, trail, -⟩ := visitUnit_trail hw
  have settled := visitUnit_settles hw
  have he : (m, v) ∈ unitEntries env u.notes := by simp [hes]
  obtain ⟨hfield, s, f, hsymbol, hf⟩ := resolves.hinted hinted
  obtain ⟨ext, same⟩ := settled m v plan v' he henter
  have written : (w.notes.get m).symbol = some s :=
    (congrArg (·.1) (same m (.of_field hfield))).trans hsymbol
  -- the record that the hint is about has been entered before
  have trail' : Trail env (start env u.notes) (before ++ (m, v) :: after) rs w := hes ▸ trail
  obtain ⟨rs', trail''⟩ := trail'.before
  have recalls := trail''.recalls (sound_start env _) fun h => by cases h <;> rfl
  obtain ⟨⟨r, vr⟩, hrecalled, stands⟩ := recalls _ b hinted
  obtain ⟨hr, hrecord⟩ := mem_of_recalled hrecalled
  have her : (r, vr) ∈ unitEntries env u.notes := by
    rw [hes]
    exact List.mem_append_left _ hr
  obtain ⟨standing, seen⟩ := settled.standsFor her (sound_of_mem_unitEntries her) hrecord stands
  refine ⟨s, f, r, vr, written, ext.asFieldBuffer? hf, hrecalled, standing, seen, fun hchain => ?_⟩
  have hsm := sound_of_mem_unitEntries he
  have extm := ((ends_enter env m hsm).ok henter).enters.extends.trans ext
  exact seen.of_mem (trail.sound (sound_start env _)).coherent.scopeTree
    (extm.lt_scopes hsm.scope_lt) hchain

/-- A temp-table with a field `f`, a procedure that finds a record of it in a buffer of its own, and
an EXCEPT list after the procedure. -/
def listSample : ParseTree := .ofRows [
  (0, .defineTempTable, ""), (1, .identifier, "tt"), (1, .tableField, ""), (3, .identifier, "f"),
  (0, .procedureStatement, ""), (5, .identifier, "p"), (5, .defineBuffer, ""),
  (7, .identifier, "b"), (7, .record, "tt"), (5, .recordFunction, ""), (10, .record, "b"),
  (0, .exceptPhrase, ""), (12, .field, "f")]

/-- In the sample, the field of the list is met in the scope of the program, when the last record
was that of the procedure's buffer. -/
theorem listSample_entry :
    let env : Env := { tree := listSample, catalog := {}, types := {}, options := {} }
    ∃ v, ((⟨13⟩, v) : NodeId × Walk) ∈ unitEntries env (.blank listSample.size) ∧
      v.hintAt ⟨13⟩ = .last ∧ v.lastTable = some ⟨4⟩ ∧ v.scope = rootScope ∧
      (v.index.bufferField? ⟨4⟩ "f").isSome := by
  intro env
  have met : (unitEntries env (.blank listSample.size)).any (fun e => e.1 = ⟨13⟩ &&
      e.2.hintAt ⟨13⟩ = .last && e.2.lastTable = some ⟨4⟩ && e.2.scope = rootScope &&
      (e.2.index.bufferField? ⟨4⟩ "f").isSome) := by
    decide +kernel
  obtain ⟨⟨m, v⟩, he, hv⟩ := List.any_eq_true.1 met
  simp only [Bool.and_eq_true, decide_eq_true_eq] at hv
  obtain ⟨⟨⟨⟨rfl, hhint⟩, hlast⟩, hscope⟩, hfield⟩ := hv
  exact ⟨v, he, hhint, hlast, hscope, hfield⟩

/-- The field of the sample is found in a buffer that is not in sight from it. -/
theorem hinted_out_of_sight :
    let env : Env := { tree := listSample, catalog := {}, types := {}, options := {} }
    ∃ index u v s f, (ofTree listSample).analyze {} {} {} = (.ok index, u) ∧
      ((⟨13⟩, v) : NodeId × Walk) ∈ unitEntries env (.blank listSample.size) ∧
      listSample.kind ⟨13⟩ = .field ∧
      (listSample.parent? ⟨13⟩).map listSample.kind = some .exceptPhrase ∧
      v.hinted? (v.hintAt ⟨13⟩) = some f.buffer ∧ (u.notes.get ⟨13⟩).symbol = some s ∧
      index.asFieldBuffer? s = some f ∧ ¬ index.Sees v.scope f.buffer := by
  intro env
  obtain ⟨index, hok, hf, howner, hchain⟩ := exists_analyze_ok_and (u := ofTree listSample) {} {} {}
    (P := fun x => x.asFieldBuffer? ⟨5⟩ = some ⟨⟨4⟩, ⟨0⟩⟩ ∧ x.owner? ⟨4⟩ = some ⟨1⟩ ∧
      x.scopeChain rootScope = [rootScope]) (by decide +kernel)
  obtain ⟨v, he, hhint, hlast, hscope, -⟩ := listSample_entry
  refine ⟨index, _, v, ⟨5⟩, ⟨⟨4⟩, ⟨0⟩⟩, hok, he, by decide, by decide, ?_, by decide +kernel, hf,
    ?_⟩
  · rw [hhint]
    exact hlast
  · rintro ⟨o, ho, hmem⟩
    rw [hscope, hchain, List.mem_singleton] at hmem
    rw [howner] at ho
    cases ho
    cases hmem

/-- In the sample, the hint of the field recalls the record in the procedure, and the buffer that it
stands for is in sight from there. -/
theorem analyze_hinted_sample :
    let env : Env := { tree := listSample, catalog := {}, types := {}, options := {} }
    ∃ index u, (ofTree listSample).analyze {} {} {} = (.ok index, u) ∧
      ∃ before v after r vr s f,
        unitEntries env (.blank listSample.size) = before ++ (⟨13⟩, v) :: after ∧
        recalled env before .last = some (r, vr) ∧ (u.notes.get ⟨13⟩).symbol = some s ∧
        index.asFieldBuffer? s = some ⟨⟨4⟩, f⟩ ∧ (u.notes.get r).symbol = some ⟨4⟩ ∧
        index.Sees vr.scope ⟨4⟩ := by
  intro env
  obtain ⟨index, hok⟩ := exists_analyze_ok (u := ofTree listSample) {} {} {} (by decide +kernel)
  obtain ⟨v, he, hhint, hlast, -, hfield⟩ := listSample_entry
  have hinted : v.hinted? (v.hintAt ⟨13⟩) = some ⟨4⟩ := by
    rw [hhint]
    exact hlast
  obtain ⟨w, hw, -⟩ := analyze_ok {} {} {} hok
  obtain ⟨rs, trail, -⟩ := visitUnit_trail hw
  obtain ⟨plan, v', henter⟩ := trail.entered _ he
  have kind : listSample.kind ⟨13⟩ = .field := by decide
  have noKeyword : listSample.hasKeyword ⟨13⟩ .input = false := by decide
  have name : Text.lastSegment (listSample.text ⟨13⟩) = "f" := by decide +kernel
  have resolves : ∃ o, Resolves env ⟨13⟩ v v' o :=
    enter_resolves (sound_of_mem_unitEntries he) kind henter
  have found : Resolves env ⟨13⟩ v v' .found := by
    obtain ⟨o, resolves⟩ := resolves
    cases resolves with
    | input keyword => exact absurd keyword (Bool.eq_false_iff.1 noKeyword)
    | found keyword moves refer => exact .found keyword moves refer
    | tolerated keyword lacks =>
      obtain ⟨b, hb, hnone⟩ := lacks
      rw [hinted] at hb
      cases hb
      have lacking : v.index.bufferField? ⟨4⟩ (Text.lastSegment (listSample.text ⟨13⟩)) = none :=
        hnone
      rw [name] at lacking
      rw [lacking] at hfield
      cases hfield
    | missing keyword moves miss =>
      cases miss with
      | anywhere kind unhinted =>
        rw [Moves.hinted? _ _ moves, hinted] at unhinted
        cases unhinted
      | inTable kind hinted found strict => exact absurd strict (by decide)
  obtain ⟨before, after, hes⟩ := List.append_of_mem he
  obtain ⟨s, f, r, vr, hsymbol, hf, hrecalled, hr, sees, -⟩ :=
    analyze_hinted {} {} {} (ofTree listSample) hok before ⟨13⟩ v after plan v' ⟨4⟩ hes henter found
      hinted
  exact ⟨index, _, hok, before, v, after, r, vr, s, f, hes, hhint ▸ hrecalled, hsymbol, hf, hr,
    sees⟩

end CompilationUnit

end AblResolve
