import AblResolve.Proofs.CompleteSymbols
import AblResolve.Proofs.IndexInheritance
/-!
Table definitions in a unit. What their clauses have gathered is what the nodes of the unit say in
the end, records of LIKE clauses included, and the indexes of the tables are as they were when the
definitions ended. All findings about fields of indexes come from the INDEX clauses of table
definitions, in the order in which the definitions end.
-/
namespace AblResolve

theorem TableClauses.exists_of_source? {c : TableClauses} {s : TableId} (h : c.source? = some s) :
    ∃ p ∈ c.sources, p.2 = s := by
  obtain ⟨p, hp, rfl⟩ := Option.map_eq_some_iff.1 h
  exact ⟨p, List.mem_of_getLast? hp, rfl⟩

namespace Walk

open UnitIndex ParseTree

variable {env : Env} {n : NodeId} {u v w w' : Walk} {plan : Plan env.tree n} {c : TableClauses}
  {es : List (NodeId × Walk)} {ns : List NodeId} {b : SymbolId}

/-! ### The end of a definition -/

/-- What tables list is theirs. -/
theorem Regular.exists_index (h : Regular w) {s : TableId} {i : IndexId}
    (listed : i ∈ w.index.indexesOf s) :
    ∃ v, w.index.indexes.get? i = some v ∧ v.table = s := by
  obtain ⟨v, hv, same⟩ := Option.bind_eq_some_iff.1 ((h.tables.indexes.listed s i).1 listed)
  exact ⟨v, hv, Option.some.inj same⟩

/-- The table that a definition has made stays its table. -/
theorem Defines.later (h : Defines env n w plan v) {y : UnitIndex} (ext : v.index.Extends y) :
    ∃ table, y.tables.get? w.index.tables.next = some table ∧ table.definitionNode = some n ∧
      table.kind ≠ .schema := by
  obtain ⟨table, found, node, own, -⟩ := h.table
  obtain ⟨table', found', fixed⟩ := ext.tables _ table found
  refine ⟨table', found', ?_, ?_⟩
  · exact (congrArg Table.definitionNode fixed :).trans node
  · exact fun schema => own ((congrArg Table.kind fixed :).symm.trans schema)

section Gathered

variable {t : TableId} (h : Gathered env es ns { table := t, buffer := b } c v u)
include h

theorem Gathered.covers {s : TableId} (source : c.source? = some s) : u.index.Covers t s := by
  obtain ⟨p, hp, rfl⟩ := TableClauses.exists_of_source? source
  exact h.covered p hp

theorem Gathered.known {s : TableId} (source : c.source? = some s)
    (there : t.val < u.index.tables.size) : s.val < u.index.tables.size := by
  by_cases same : s = t
  · exact same ▸ there
  · obtain ⟨⟨table, found, -⟩, -⟩ := h.covers source same
    exact Arena.lt_size_of_get? found

/-- All indexes of the table of the last LIKE clause can be copied. -/
theorem Gathered.copyable (regular : Regular u) (bare : v.index.indexesOf t = []) {s : TableId}
    (source : c.source? = some s) {i : IndexId} (listed : i ∈ u.index.indexesOf s) :
    u.index.Copyable t i := by
  obtain ⟨index, found, rfl⟩ := regular.exists_index listed
  refine ⟨index, found, fun f hf => ?_⟩
  by_cases itself : index.table = t
  · -- the table's own indexes have no fields yet
    have own := h.listed
    rw [bare, List.nil_append] at own
    rw [itself, own] at listed
    obtain ⟨p, hp, rfl⟩ := List.mem_map.1 listed
    obtain rfl := Option.some.inj (found.symm.trans (h.made p hp))
    cases hf
  · obtain ⟨-, covered⟩ := h.covers source itself
    obtain ⟨g, name, hg, hname, hsame⟩ :=
      covered f (regular.tables.indexFields i index found f hf)
    obtain ⟨first, hfirst⟩ := exists_firstField? hg hsame
    exact ⟨first, by rw [counterpart?, hname, Option.bind_some, hfirst]⟩

end Gathered

/-- The visit of a table definition from `w` to `w'`, and what has been gathered from its
clauses. -/
structure Indexed (env : Env) (n : NodeId) (w w' : Walk) (c : TableClauses)
    (own inherited : List IndexId) : Prop where
  regular : Regular w'
  closed : w'.tableDefinition = none
  indexes : c.indexes.map (·.2) = env.tree.indexClauses ((exits env n w).map (·.1))
  useIndex : c.useIndex = env.tree.useIndexes ((exits env n w).map (·.1))
  sources : c.sources.map (·.1) = env.tree.likeRecords ((exits env n w).map (·.1))
  named : ∀ p ∈ c.sources, NamesTable env (entries env n w) p.1 p.2
  table : ∃ table, w'.index.tables.get? w.index.tables.next = some table ∧
    table.definitionNode = some n
  known : ∀ s, c.source? = some s → s.val < w'.index.tables.size
  ok : IndexesOk env.tree w'.index w.index.tables.next (c.indexes.map (·.2))
    (c.useIndex.map (·.1)) c.source? own inherited

theorem table_indexed {Child : NodeId → Walk → Walk → Prop}
    (kind : (env.tree.kind n).isTableDefinition) (regular : Regular w)
    (henter : enter env n w = .ok plan v) (admitted : Admitted env n w plan v)
    (rounds : Rounds env n w Child plan.steps v u) (done : Done env n u plan.leave w') :
    ∃ c own inherited, Indexed env n w w' c own inherited ∧
      w'.index.skippedFields = u.index.skippedFields ++
        (c.indexes.map (·.2)).flatMap (env.tree.skippedBy w'.index w.index.tables.next) := by
  obtain ⟨c, rest, gathered, strides, hfinish⟩ :=
    table_gathered kind regular henter admitted rounds done
  have defines := enter_table kind henter
  have regular' := strides.regular ((admitted.enters.strides regular.sound).regular regular)
  have hvisit := visit_of_parts henter rounds done
  have visited := ((ends_visit env n regular.sound).ok hvisit).1
  have regularEnd := (visit_gathers n regular.sound hvisit).strides.regular regular
  obtain ⟨table, found, node, own⟩ := defines.later strides.extends
  have bare : v.index.indexesOf w.index.tables.next = [] := by
    obtain ⟨fresh, hfresh, -, -, hindexes⟩ := defines.table
    simp [indexesOf, hfresh, hindexes]
  have like : (TableDefinition.after env.tree
      { table := w.index.tables.next, buffer := w.index.symbols.next } c).like = c.source? := by
    simp [TableDefinition.after, TableClauses.source?]
  obtain ⟨copies, y, z, copied, filled, hindex⟩ := finishTable_ok
    (w := { u with tableDefinition := none, openDefinitions := rest }) ⟨table, found, own⟩
    (fun s i hi => (regular'.exists_index hi).elim fun _ h => Arena.lt_size_of_get? h.1)
    (fun s source i hi => gathered.copyable regular' bare (like ▸ source) hi) hfinish
  have ended : Ended env.tree w.index.tables.next c copies u.index y z := by
    refine ⟨⟨table, found⟩, ?_, gathered.made, ?_, ?_, ?_, fun s i hi => regular'.exists_index hi⟩
    · simpa [bare] using gathered.listed
    · simpa [TableDefinition.after, TableClauses.source?] using copied
    · simpa [TableDefinition.after] using filled
    · exact hindex ▸ regularEnd.tables.indexes.nodup _
  refine ⟨c, c.indexes.map (·.1), copies, ?_, hindex ▸ ended.findings⟩
  refine ⟨regularEnd, ?_, gathered.indexes, gathered.useIndex, gathered.sources, gathered.named,
    ?_, fun s source => ?_, hindex ▸ ended.indexesOk⟩
  · have same := congrArg Frame.table visited.frame
    simpa [Walk.frame, defines.closed] using same
  · obtain ⟨table, found, node, -⟩ := defines.later (strides.extends.trans done.strides.extends)
    exact ⟨table, found, node⟩
  · exact done.strides.extends.tables.lt_size
      (gathered.known source (Arena.lt_size_of_get? found))

/-! ### Findings -/

/-- The findings that the end of a table definition makes about fields of its INDEX clauses; other
nodes make none. -/
def skippedAt (env : Env) (x : UnitIndex) (e : NodeId × Walk) : List Diagnostic :=
  if (env.tree.kind e.1).isTableDefinition then
    (env.tree.indexClauses ((exits env e.1 e.2).map (·.1))).flatMap
      (env.tree.skippedBy x e.2.index.tables.next)
  else []

/-- From `w` to `w'`, the findings about fields of indexes are those that the nodes in `fs` make,
whichever later state is asked which fields there are. -/
structure Skips (env : Env) (fs : List (NodeId × Walk)) (w w' : Walk) : Prop where
  strides : Strides w w'
  findings : Regular w → ∀ u, Strides w' u →
    w'.index.skippedFields = w.index.skippedFields ++ fs.flatMap (skippedAt env u.index)

section Skips

variable {fs fs' : List (NodeId × Walk)}

theorem Skips.trans (h : Skips env fs w v) (k : Skips env fs' v w') :
    Skips env (fs ++ fs') w w' where
  strides := h.strides.trans k.strides
  findings regular u onward := by
    rw [k.findings (h.strides.regular regular) u onward,
      h.findings regular u (k.strides.trans onward), List.flatMap_append, List.append_assoc]

theorem Skips.of_same (strides : Strides w w')
    (same : w'.index.skippedFields = w.index.skippedFields) : Skips env [] w w' :=
  ⟨strides, fun _ _ _ => by simp [same]⟩

/-- At a node that defines no table there are no such findings. -/
theorem Skips.here (h : Skips env fs w w')
    (other : (env.tree.kind n).isTableDefinition = false) : Skips env (fs ++ [(n, v)]) w w' where
  strides := h.strides
  findings regular u onward := by
    simp [h.findings regular u onward, skippedAt, other]

theorem Rounds.skips {w₀ : Walk} {steps : List (Step env.tree n)}
    (h : Rounds env n w₀ (fun c v v' => Skips env (exits env c v) v v') steps w w')
    (quiet : (env.tree.kind n).shapesTable → ∀ s ∈ steps, s.before = [] ∧ s.after = []) :
    Skips env (stepsExits env steps w) w w' :=
  Rounds.chain (R := fun _ fs u v => Skips env fs u v) (fun before after => before.trans after)
    (fun strides leaves => .of_same strides leaves.kept.findings) h quiet

/-- Entering a node and the actions at its end add no such finding, except at the end of a table
definition. -/
theorem node_findings (hs : Sound w) (other : (env.tree.kind n).isTableDefinition = false)
    (henter : enter env n w = .ok plan v) (admitted : Admitted env n w plan v)
    (done : Done env n u plan.leave w') :
    v.index.skippedFields = w.index.skippedFields ∧
      w'.index.skippedFields = u.index.skippedFields ∧
      ((env.tree.kind n).shapesTable → ∀ s ∈ plan.steps, s.before = [] ∧ s.after = []) := by
  cases hk : env.tree.kind n with
  | tableUseIndex =>
    obtain ⟨rfl, d, -, rfl⟩ := enter_useIndex hk henter
    cases done
    exact ⟨rfl, rfl, by simp [Plan.done]⟩
  | tableIndex =>
    obtain ⟨rfl, hadd⟩ := enter_tableIndex hk henter
    obtain ⟨d, -, rfl⟩ := addIndex_ok hadd
    cases done
    exact ⟨rfl, rfl, by simp [Plan.done]⟩
  | tableLike =>
    obtain ⟨rfl, hplan⟩ := enter_tableLike hk henter
    cases hrecord : env.tree.childOfKind? n .record with
    | none =>
      rw [hrecord] at hplan
      subst hplan
      cases done
      exact ⟨rfl, rfl, fun _ => quiet_plain⟩
    | some r =>
      rw [hrecord] at hplan
      subst hplan
      obtain ⟨_, _, _, _, _, _, -, -, -, -, -, -, rfl⟩ := done.copyFields
      refine ⟨rfl, rfl, fun _ s hs => ?_⟩
      obtain ⟨c, -, rfl⟩ := List.mem_map.1 hs
      exact ⟨rfl, rfl⟩
  | defineTempTable | defineWorkTable =>
    rw [hk] at other
    cases other
  | _ =>
    have shapes : (env.tree.kind n).shapesTable = false := by
      rw [hk]
      rfl
    refine ⟨(admitted.enters.leaves shapes).kept.findings, (done.leaves shapes).kept.findings, ?_⟩
    intro h
    cases h

theorem visit_skips (n : NodeId) (hs : Sound w) (hok : visit env n w = .ok () w') :
    Skips env (exits env n w) w w' := by
  refine visit_rounds (P := fun c v v' => Skips env (exits env c v) v v') ?_ n hs hok
  intro n w plan v v' w' hs henter admitted rounds done visited
  have entering := admitted.enters.strides hs
  rw [exits_of_ok henter]
  cases kind : (env.tree.kind n).isTableDefinition with
  | false =>
    obtain ⟨entered, left, quiet⟩ := node_findings hs kind henter admitted done
    have before : Skips env [] w v := .of_same entering entered
    simpa using ((before.trans (rounds.skips quiet)).trans (.of_same done.strides left)).here kind
  | true =>
    have defines := enter_table kind henter
    have below := rounds.skips fun _ => by
      rw [defines.plan]
      exact quiet_around
    refine ⟨entering.trans (below.strides.trans done.strides), fun regular u onward => ?_⟩
    obtain ⟨c, own, inherited, indexed, findings⟩ :=
      table_indexed kind regular henter admitted rounds done
    obtain ⟨table, found, -⟩ := indexed.table
    have ok := indexed.regular.tables
    rw [TablesOk, indexed.closed] at ok
    have later : env.tree.skippedBy u.index w.index.tables.next =
        env.tree.skippedBy w'.index w.index.tables.next :=
      ok.skippedBy (onward.keepsTables indexed.regular.sound indexed.regular.tables)
        (Arena.lt_size_of_get? found)
    have here : skippedAt env u.index (n, w) =
        (c.indexes.map (·.2)).flatMap (env.tree.skippedBy w'.index w.index.tables.next) := by
      rw [skippedAt, if_pos kind, later, indexed.indexes]
    rw [findings, below.findings (entering.regular regular) u (done.strides.trans onward),
      defines.findings, List.flatMap_append, List.flatMap_singleton, here, List.append_assoc]

theorem visitUnit_skips {notes : Annotations}
    (hok : visitUnit env (start env notes) = .ok () w) :
    w.index.skippedFields = (unitExits env notes).flatMap (skippedAt env w.index) := by
  have rounds := visitUnit_rounds (fun c _ _ _ hs hok => visit_skips c hs hok) hok
  have skips : Skips env (unitExits env notes) (start env notes) w := by
    refine rounds.skips fun _ s hs => ?_
    obtain ⟨c, -, rfl⟩ := List.mem_map.1 hs
    exact ⟨rfl, rfl⟩
  rw [skips.findings (regular_start env notes) w .refl]
  rfl

end Skips

/-! ### Over a unit -/

section Unit

variable {notes : Annotations}

/-- What the record of a LIKE clause stands for is what is noted on it in the end. -/
theorem NamesTable.source {r : NodeId} {s : TableId} (h : NamesTable env es r s)
    (hok : visitUnit env (start env notes) = .ok () w) (sub : es ⊆ unitEntries env notes)
    (kind : env.tree.kind r = .record) :
    (w.notes.get r).symbol.bind w.index.bufferTable? = some s := by
  obtain ⟨v, v', b, he, hvisit, hsymbol, hbuffer⟩ := h
  have hv := sound_of_mem_unitEntries (sub he)
  have mem : (r, v) ∈ entries env r v := by
    rw [entries]
    exact List.mem_cons_self
  obtain ⟨plan, u, henter, -⟩ := (visit_surveys r hv hvisit).entered _ mem
  have there := (visit_settles env r hv hvisit r v plan u mem henter).2 r (.of_record kind)
  have last := (visitUnit_settles hok r v plan u (sub he) henter).2 r (.of_record kind)
  have same : (w.notes.get r).symbol = some b :=
    (congrArg (·.1) (last.trans there.symm) :).trans hsymbol
  obtain ⟨before, after, v'', around⟩ := (visitUnit_surveys hok).around _ (sub he)
  cases hvisit.symm.trans around.visit
  rw [same]
  exact around.ends.strides.extends.bufferTable? hbuffer

/-- The table that a table is like: the one for which the record of the LIKE clause stands that is
completed last. -/
def likeSource? (tree : ParseTree) (notes : Annotations) (x : UnitIndex) (ns : List NodeId) :
    Option TableId :=
  (tree.likeRecords ns).getLast?.bind fun r => (notes.get r).symbol.bind x.bufferTable?

theorem kind_of_mem_likeRecords {tree : ParseTree} {r : NodeId} (h : r ∈ tree.likeRecords ns) :
    tree.kind r = .record := by
  obtain ⟨m, -, hm⟩ := List.mem_filterMap.1 h
  split at hm
  · simpa using List.find?_some hm
  · cases hm

theorem Indexed.source? {own inherited : List IndexId} (h : Indexed env n v w' c own inherited)
    (hok : visitUnit env (start env notes) = .ok () w)
    (sub : entries env n v ⊆ unitEntries env notes) :
    c.source? = likeSource? env.tree w.notes w.index ((exits env n v).map (·.1)) := by
  rw [likeSource?, ← h.sources, List.getLast?_map, TableClauses.source?]
  cases hlast : c.sources.getLast? with
  | none => rfl
  | some p =>
    have mem := List.mem_of_getLast? hlast
    have record : env.tree.kind p.1 = .record :=
      kind_of_mem_likeRecords (h.sources ▸ List.mem_map_of_mem mem)
    exact ((h.named p mem).source hok sub record).symm

/-- What the indexes of the table of a definition are when the walk over the unit is over. -/
theorem visitUnit_tableIndexes (hok : visitUnit env (start env notes) = .ok () w)
    (he : (n, v) ∈ unitEntries env notes) (kind : (env.tree.kind n).isTableDefinition) :
    (∃ table, w.index.tables.get? v.index.tables.next = some table ∧
      table.definitionNode = some n) ∧
    ∃ own inherited, IndexesOk env.tree w.index v.index.tables.next
      (env.tree.indexClauses ((exits env n v).map (·.1)))
      ((env.tree.useIndexes ((exits env n v).map (·.1))).map (·.1))
      (likeSource? env.tree w.notes w.index ((exits env n v).map (·.1))) own inherited := by
  obtain ⟨before, after, v', around⟩ := (visitUnit_surveys hok).around _ he
  have regular := regular_of_mem_unitEntries hok he
  obtain ⟨plan, u, u', henter, admitted, rounds, done⟩ :=
    visit_apart regular.sound (fun c _ v v' _ (h : visit env c v = .ok () v') => h) around.visit
  obtain ⟨c, own, inherited, indexed, -⟩ := table_indexed kind regular henter admitted rounds done
  have onward := around.ends.strides
  have sub : entries env n v ⊆ unitEntries env notes := by
    rw [around.split]
    simp
  obtain ⟨table, found, node⟩ := indexed.table
  obtain ⟨table', found', fixed⟩ := onward.extends.tables _ table found
  have ok := indexed.regular.tables
  rw [TablesOk, indexed.closed] at ok
  have kept := onward.keepsTables indexed.regular.sound indexed.regular.tables
  refine ⟨⟨table', found', (congrArg Table.definitionNode fixed :).trans node⟩, own, inherited, ?_⟩
  rw [← indexed.source? hok sub, ← indexed.indexes, ← indexed.useIndex]
  exact indexed.ok.later kept ok (Arena.lt_size_of_get? found) indexed.known

end Unit

end Walk

namespace CompilationUnit

open UnitIndex Walk

/-- Every table definition of a unit has made a table, which has the indexes of its INDEX clauses,
in order and with the fields that they name and the table has, and after them indexes inherited from
the table of its last LIKE clause: those that USE-INDEX clauses name, or all of them if there are no
such clauses and no INDEX clauses. If that is another table, no field of an inherited index is lost.
All findings about fields of indexes are about fields that INDEX clauses name and their tables have
not got. -/
theorem analyze_tableIndexes (catalog : Catalog) (types : TypeRegistry) (options : Options)
    {u u' : CompilationUnit} {index : UnitIndex}
    (hok : u.analyze catalog types options = (.ok index, u')) :
    let env : Env := { tree := u.tree, catalog, types, options }
    (∀ n v, (n, v) ∈ unitEntries env u.notes → (u.tree.kind n).isTableDefinition →
      let t := v.index.tables.next
      let completed := (exits env n v).map (·.1)
      (∃ table, index.tables.get? t = some table ∧ table.definitionNode = some n) ∧
      ∃ own inherited, IndexesOk u.tree index t (u.tree.indexClauses completed)
        ((u.tree.useIndexes completed).map (·.1))
        (likeSource? u.tree u'.notes index completed) own inherited) ∧
    index.skippedFields = (unitExits env u.notes).flatMap (skippedAt env index) := by
  intro env
  obtain ⟨w, hvisit, rfl, rfl⟩ := analyze_ok catalog types options hok
  exact ⟨fun n v he kind => visitUnit_tableIndexes hvisit he kind, visitUnit_skips hvisit⟩

/-- A temp-table with an index over a field `f` that is defined after it and a field that is not
there, and another one like it, with an index of its own and a USE-INDEX clause before the LIKE
clause. -/
def tableIndexSample : ParseTree := .ofRows [
  (0, .defineTempTable, ""), (1, .identifier, "tt"), (1, .tableIndex, ""), (3, .identifier, "ix"),
  (3, .indexField, "f"), (3, .indexField, "g"), (1, .tableField, ""), (7, .identifier, "f"),
  (0, .defineTempTable, ""), (9, .identifier, "uu"), (9, .tableIndex, ""), (11, .identifier, "own"),
  (11, .indexField, "f"), (9, .tableUseIndex, ""), (14, .identifier, "ix"), (9, .tableLike, ""),
  (16, .record, "tt")]

/-- In the sample, the second table has its own index and, over its own field, one that is inherited
from the first table's; the only finding is about the field that is not there. -/
theorem analyze_tableIndexSample :
    ∃ index u i j, (ofTree tableIndexSample).analyze {} {} {} = (.ok index, u) ∧
      index.indexesOf ⟨1⟩ = [i, j] ∧
      index.indexes.get? i = some (tableIndexSample.indexOf ⟨11⟩ ⟨1⟩ [⟨1⟩]) ∧
      index.Inherits ⟨1⟩ ⟨0⟩ ⟨0⟩ j ∧
      index.skippedFields = [.skippedIndexField "g" "ix" (tableIndexSample.location ⟨6⟩)] := by
  obtain ⟨index, hok, chosen, fields, source, findings⟩ :=
    exists_analyze_ok_and (u := ofTree tableIndexSample) {} {} {}
      (P := fun x => x.chosenIndexes true ["ix"] (some ⟨0⟩) = [⟨0⟩] ∧
        tableIndexSample.indexFields x ⟨1⟩ ⟨11⟩ = [⟨1⟩] ∧ x.bufferTable? ⟨1⟩ = some ⟨0⟩ ∧
        x.skippedFields = [.skippedIndexField "g" "ix" (tableIndexSample.location ⟨6⟩)])
      (by decide +kernel)
  have entered : (unitEntries { tree := tableIndexSample } (.blank tableIndexSample.size)).any
      (fun e => e.1 = ⟨9⟩ && e.2.index.tables.next = ⟨1⟩ &&
        (exits { tree := tableIndexSample } e.1 e.2).map (·.1) =
          [⟨10⟩, ⟨11⟩, ⟨14⟩, ⟨17⟩, ⟨16⟩, ⟨9⟩]) = true := by
    decide +kernel
  have record : (((ofTree tableIndexSample).analyze {} {} {}).2.notes.get ⟨17⟩).symbol =
      some ⟨1⟩ := by decide +kernel
  generalize ((ofTree tableIndexSample).analyze {} {} {}).2 = u at hok record
  obtain ⟨⟨n, v⟩, he, facts⟩ := List.any_eq_true.1 entered
  simp only [Bool.and_eq_true, decide_eq_true_eq] at facts
  obtain ⟨⟨rfl, next⟩, completed⟩ := facts
  obtain ⟨tables, -⟩ := analyze_tableIndexes {} {} {} hok
  obtain ⟨-, own, inherited, ok⟩ := tables ⟨9⟩ v he (by decide)
  have clauses : tableIndexSample.indexClauses [⟨10⟩, ⟨11⟩, ⟨14⟩, ⟨17⟩, ⟨16⟩, ⟨9⟩] = [⟨11⟩] := by
    decide
  have names : (tableIndexSample.useIndexes [⟨10⟩, ⟨11⟩, ⟨14⟩, ⟨17⟩, ⟨16⟩, ⟨9⟩]).map (·.1) =
      ["ix"] := by decide
  have records : tableIndexSample.likeRecords [⟨10⟩, ⟨11⟩, ⟨14⟩, ⟨17⟩, ⟨16⟩, ⟨9⟩] = [⟨17⟩] := by
    decide
  have like : likeSource? tableIndexSample u.notes index [⟨10⟩, ⟨11⟩, ⟨14⟩, ⟨17⟩, ⟨16⟩, ⟨9⟩] =
      some ⟨0⟩ := by
    simp [likeSource?, records, record, source]
  have sample : (ofTree tableIndexSample).tree = tableIndexSample := rfl
  simp only [sample, next, completed, clauses, names, like] at ok
  obtain ⟨i, _, hi, hrest, rfl⟩ := List.forall₂_cons_left_iff.1 ok.explicit
  obtain rfl := List.forall₂_nil_left_iff.1 hrest
  have inherits : List.Forall₂ (fun i j => ∃ s, some ⟨0⟩ = some s ∧ index.Inherits ⟨1⟩ s i j) [⟨0⟩]
      inherited := chosen ▸ ok.inherits
  obtain ⟨j, _, ⟨_, same, hj⟩, hrest, rfl⟩ := List.forall₂_cons_left_iff.1 inherits
  cases same
  obtain rfl := List.forall₂_nil_left_iff.1 hrest
  exact ⟨index, u, i, j, hok, ok.listed, fields ▸ hi, hj, findings⟩

end CompilationUnit

end AblResolve
