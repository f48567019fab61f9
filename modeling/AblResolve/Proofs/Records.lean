import AblResolve.Proofs.Settled
/-!
Records. When an analysis succeeds, every record that the walk has met stands for a buffer. When it
meets a record that names no table, nothing is left on the tree, and the error is that of the first
such record: no buffer, no table of the unit and no table of the catalog had its name by then.
-/
namespace AblResolve

namespace Walk

open UnitIndex

/-- What is written on a record that is used as `q`: a buffer, the use, and where the records of
the buffer's table are stored. -/
def DescribesRecord (x : UnitIndex) (q : Qualifier) (a : Annotation) : Prop :=
  ∃ b t table, a.symbol = some b ∧ x.bufferTable? b = some t ∧ x.tables.get? t = some table ∧
    a.qualifier = some q ∧ a.store = some table.kind.store

theorem DescribesRecord.extends {x y : UnitIndex} {q : Qualifier} {a a' : Annotation}
    (h : DescribesRecord x q a) (ext : x.Extends y) (same : meaning a' = meaning a) :
    DescribesRecord y q a' := by
  obtain ⟨b, t, table, hsymbol, hbuffer, htable, hqualifier, hstore⟩ := h
  obtain ⟨table', htable', hfixed⟩ := ext.tables t table htable
  have hkind : table'.fixed.kind = table.fixed.kind := congrArg Table.kind hfixed
  obtain ⟨hsymbol', hqualifier', hstore'⟩ : a'.symbol = a.symbol ∧ a'.qualifier = a.qualifier ∧
      a'.store = a.store := by simpa [meaning] using same
  refine ⟨b, t, table', hsymbol'.trans hsymbol, ext.bufferTable? hbuffer, htable',
    hqualifier'.trans hqualifier, ?_⟩
  rw [hstore', hstore]
  exact congrArg (fun kind : TableKind => some kind.store) hkind.symm

section Record

variable {env : Env} {r : NodeId} {v w : Walk} {q : Qualifier}

theorem Refer.describesRecord (h : Refer env r v (.record q) w) :
    DescribesRecord w.index q (w.notes.get r) := by
  cases h with
  | record bufferScope abbreviated kind isBuffer found sees =>
    refine ⟨_, _, _, ?_, (extends_counted _ _ _).bufferTable? isBuffer, found, ?_, ?_⟩ <;>
      rw [Annotations.get_update_self]

/-- A record that has been entered is described as long as the walk lasts. -/
theorem Settles.describesRecord {es : List (NodeId × Walk)} (h : Settles env es w)
    (he : (r, v) ∈ es) (entered : Entered env (r, v)) (hs : Sound v)
    (hkind : env.tree.kind r = .record) :
    DescribesRecord w.index (v.qualifierAt r) (w.notes.get r) := by
  obtain ⟨plan, v', henter⟩ := entered
  obtain ⟨-, _, -, refer⟩ := ((ends_enter env r hs).ok henter).record hkind
  obtain ⟨ext, settled⟩ := h r v plan v' he henter
  exact refer.describesRecord.extends ext (settled r (.of_record hkind))

/-- Where the name of a record has been looked for in vain. -/
theorem NamesNone.missing (h : NamesNone env r v) (hs : Sound v) :
    if v.qualifierAt r = .tempTableSymbol then
      v.index.findIn? rootScope .table (env.tree.text r) = none
    else
      (∀ s ∈ v.index.scopeChain v.scope, v.index.findIn? s .buffer (env.tree.text r) = none) ∧
        v.index.findIn? rootScope .table (env.tree.text r) = none ∧
        env.catalog.table? (env.tree.text r) = none := by
  obtain ⟨-, missing⟩ := h
  have hne := hs.qualifierAt_ne r
  split
  · rename_i htemp
    rwa [htemp] at missing
  · rename_i htemp
    have hlookup : RecordLookup.ofQualifier (v.qualifierAt r) = .buffer := by
      cases hq : v.qualifierAt r <;> simp_all [RecordLookup.ofQualifier]
    rwa [hlookup] at missing

end Record

end Walk

namespace CompilationUnit

open UnitIndex Walk

variable (catalog : Catalog) (types : TypeRegistry) (options : Options)

/-- A unit is resolved or clean: either every record that the walk has met is described, or the
unit has nothing written on it and the error is that of the first record that names no table. -/
theorem analyze_resolved_or_clean (u : CompilationUnit) :
    let env : Env := { tree := u.tree, catalog, types, options }
    let entered := unitEntries env u.notes
    (∀ index u', u.analyze catalog types options = (.ok index, u') →
      ∀ r v, (r, v) ∈ entered → u.tree.kind r = .record →
        DescribesRecord index (v.qualifierAt r) (u'.notes.get r)) ∧
    (∀ name file location u',
      u.analyze catalog types options = (.error (.unresolvedTable name file location), u') →
      u'.tree = u.tree ∧ (∀ n, u'.notes.get n = {}) ∧
      ∃ before r v, entered = before ++ [(r, v)] ∧ u.tree.kind r = .record ∧
        name = u.tree.text r ∧ file = fileNameOf env r ∧ location = u.tree.location r ∧
        (∀ e ∈ before, ¬ NamesNone env e.1 e.2) ∧
        v.qualifierAt r ≠ .schemaTableSymbol ∧
        if v.qualifierAt r = .tempTableSymbol then
          v.index.findIn? rootScope .table name = none
        else
          (∀ s ∈ v.index.scopeChain v.scope, v.index.findIn? s .buffer name = none) ∧
            v.index.findIn? rootScope .table name = none ∧ catalog.table? name = none) := by
  intro env entered
  have ends := ends_visitUnit env u.notes
  constructor
  · intro index u' hok r v he hkind
    obtain ⟨w, hw, rfl, rfl⟩ := analyze_ok catalog types options hok
    have hs := sound_of_mem_unitEntries he
    exact (visitUnit_settles hw).describesRecord he ((ends.ok hw).2 _ he) hs hkind
  · intro name file location u' herror
    obtain ⟨w, hw, rfl⟩ := analyze_error catalog types options herror
    refine ⟨rfl, fun n => Annotations.get_blank _ n, ?_⟩
    cases ends.error hw with
    | unresolved stops opened orderly sound ext since frame =>
      rename_i r v E
      obtain ⟨before, hes, passed⟩ := stops.last
      refine ⟨before, r, v, hes, stops.namesNone.1, rfl, rfl, rfl, fun e he hnone => ?_,
        stops.sound.qualifierAt_ne r, stops.namesNone.missing stops.sound⟩
      have hmem : e ∈ entered := by
        rw [show entered = before ++ [(r, v)] from hes]
        exact List.mem_append_left _ he
      exact hnone.not_entered (sound_of_mem_unitEntries hmem) (passed e he)

/-- The record of the sample is described. Next to it, an unknown table is the one that the error
names. -/
theorem analyze_resolved_or_clean_sample :
    let env : Env := { tree := sampleTree, catalog := {}, types := {}, options := {} }
    let unknown : CompilationUnit := ofTree (.ofRows [(0, .recordFunction, ""), (1, .record, "x")])
    (∃ index v, ((⟨8⟩, v) : NodeId × Walk) ∈ unitEntries env (.blank sampleTree.size) ∧
      DescribesRecord index (v.qualifierAt ⟨8⟩)
        (((ofTree sampleTree).analyze {} {} {}).2.notes.get ⟨8⟩)) ∧
    ∃ location, (unknown.analyze {} {} {}).1 =
        .error (.unresolvedTable "x" "sample.p" location) ∧
      ∀ n, (unknown.analyze {} {} {}).2.notes.get n = {} := by
  intro env unknown
  constructor
  · obtain ⟨index, hok⟩ := exists_analyze_ok (u := ofTree sampleTree) {} {} {} (by decide +kernel)
    have met : (unitEntries env (.blank sampleTree.size)).any (fun e => e.1 = ⟨8⟩) := by
      decide +kernel
    obtain ⟨⟨r, v⟩, he, hr⟩ := List.any_eq_true.1 met
    cases of_decide_eq_true hr
    obtain ⟨described, -⟩ := analyze_resolved_or_clean {} {} {} (ofTree sampleTree)
    exact ⟨index, v, he, described index _ hok _ v he (by decide)⟩
  · have hfirst : (unknown.analyze {} {} {}).1 =
        .error (.unresolvedTable "x" "sample.p" (unknown.tree.location ⟨2⟩)) := by
      decide +kernel
    refine ⟨_, hfirst, ?_⟩
    exact ((analyze_resolved_or_clean {} {} {} unknown).2 _ _ _ _ (Prod.ext hfirst rfl)).2.1

end CompilationUnit

end AblResolve
