import AblResolve.Proofs.ParallelSymbols
import AblResolve.Walk.Enter.References
import AblResolve.Walk.Enter.Phrases
import Mathlib.Data.List.Find
/-!
Walks over two trees that share nodes. At the nodes they share the trees have the same words, up to
how these are spelled. Definitions of tables, and the actions of plans, run in parallel on such
trees.
-/
namespace AblResolve

/-- The nodes that are used by default, with one more if they are to be listed. -/
def Options.noting (o : Options) (n : NodeId) (ns : List NodeId) : List NodeId :=
  if o.recordDefaultedQualifiers then ns ++ [n] else ns

/-- The trees agree at the nodes they share, and all else that the walks are given is the same. -/
structure Env.Alike (L : Likeness) (env env' : Env) : Prop where
  catalog : env.catalog = env'.catalog
  types : env.types = env'.types
  /-- The options are as close as the lists of nodes are that they ask for. -/
  defaults : ∀ {ns ns' : List NodeId}, L.defaults ns ns' → ∀ n,
    L.defaults (env.options.noting n ns) (env'.options.noting n ns')
  /-- What is below a node that is shared is shared. -/
  below : ∀ {n}, L.nodes n → ∀ c ∈ env.tree.children n, L.nodes c
  children : ∀ {n}, L.nodes n → env.tree.children n = env'.tree.children n
  kind : ∀ {n}, L.nodes n → env.tree.kind n = env'.tree.kind n
  text : ∀ {n}, L.nodes n → L.text (env.tree.text n) = L.text (env'.tree.text n)
  location : ∀ {n}, L.nodes n → env.tree.location n = env'.tree.location n
  fileName : ∀ {n}, L.nodes n → Walk.fileNameOf env n = Walk.fileNameOf env' n
  definesInline : ∀ {n}, L.nodes n → env.tree.definesInline n = env'.tree.definesInline n
  parentKind : ∀ {n}, L.nodes n →
    (env.tree.parent? n).map env.tree.kind = (env'.tree.parent? n).map env'.tree.kind
  /-- How an argument is passed may depend on what is beside it. -/
  handleMode : L.counts = true → ∀ {n}, L.nodes n → Walk.handleMode env n = Walk.handleMode env' n

namespace Env.Alike

variable {L : Likeness} {env env' : Env} (h : env.Alike L env') {n : NodeId}
include h

theorem childOfKind? (hn : L.nodes n) (kind : NodeKind) :
    env.tree.childOfKind? n kind = env'.tree.childOfKind? n kind := by
  unfold ParseTree.childOfKind?
  rw [← h.children hn]
  refine List.find?_congr fun c hc => ?_
  rw [h.kind (h.below hn c hc)]

theorem childrenOfKind (hn : L.nodes n) (kind : NodeKind) :
    env.tree.childrenOfKind n kind = env'.tree.childrenOfKind n kind := by
  unfold ParseTree.childrenOfKind
  rw [← h.children hn]
  refine List.filter_congr fun c hc => ?_
  rw [h.kind (h.below hn c hc)]

theorem hasKeyword (hn : L.nodes n) (keyword : Keyword) :
    env.tree.hasKeyword n keyword = env'.tree.hasKeyword n keyword := by
  rw [ParseTree.hasKeyword, h.childOfKind? hn, ParseTree.hasKeyword]

theorem nodes_childOfKind? (hn : L.nodes n) {kind : NodeKind} {c : NodeId}
    (hc : env.tree.childOfKind? n kind = some c) : L.nodes c :=
  h.below hn c (List.mem_of_find?_eq_some hc)

theorem nodes_childrenOfKind (hn : L.nodes n) {kind : NodeKind} {c : NodeId}
    (hc : c ∈ env.tree.childrenOfKind n kind) : L.nodes c :=
  h.below hn c (List.mem_filter.1 hc).1

theorem definedName (hn : L.nodes n) :
    L.text (env.tree.definedName n) = L.text (env'.tree.definedName n) := by
  unfold ParseTree.definedName ParseTree.identifier?
  rw [← h.childOfKind? hn]
  cases hc : env.tree.childOfKind? n .identifier with
  | none => rfl
  | some c => exact h.text (h.nodes_childOfKind? hn hc)

end Env.Alike

namespace Walk

variable {L : Likeness} {α β : Type} {env env' : Env}

/-- The definitions are alike and their clauses stand at shared nodes. -/
def SameDefinition (L : Likeness) (d d' : TableDefinition) : Prop :=
  L.definition d = L.definition d' ∧ Shares L d

namespace SameDefinition

variable {d d' : TableDefinition} (h : SameDefinition L d d')
include h

theorem table : d.table = d'.table := (congrArg TableDefinition.table h.1 :)

theorem buffer : d.buffer = d'.buffer := (congrArg TableDefinition.buffer h.1 :)

theorem like : d.like = d'.like := (congrArg TableDefinition.like h.1 :)

theorem hasExplicitIndex : d.hasExplicitIndex = d'.hasExplicitIndex :=
  (congrArg TableDefinition.hasExplicitIndex h.1 :)

theorem useIndex : List.Forall₂ (fun p p' => L.text p.1 = L.text p'.1 ∧ p.2 = p'.2)
    d.useIndex d'.useIndex := by
  have same : d.useIndex.map (fun p => (L.text p.1, p.2)) =
      d'.useIndex.map fun p => (L.text p.1, p.2) := (congrArg TableDefinition.useIndex h.1 :)
  rw [← List.forall₂_eq_eq_eq, List.forall₂_map_left_iff, List.forall₂_map_right_iff] at same
  exact same.imp fun _ _ hp => Prod.mk.inj hp

theorem indexFields : List.Forall₂ (fun p p' => L.pendingField p = L.pendingField p')
    d.indexFields d'.indexFields := by
  have same : d.indexFields.map L.pendingField = d'.indexFields.map L.pendingField :=
    (congrArg TableDefinition.indexFields h.1 :)
  rwa [← List.forall₂_eq_eq_eq, List.forall₂_map_left_iff, List.forall₂_map_right_iff] at same

end SameDefinition

namespace Parallel

/-! ### The open table -/

theorem openTable : Parallel L (SameDefinition L) openTable openTable := by
  refine .bind .get fun w w' hw => ?_
  have same := hw.tableDefinition
  have shared := hw.shared
  cases hd : w.tableDefinition <;> cases hd' : w'.tableDefinition <;> rw [hd, hd'] at same <;>
    simp only [Option.map_some, Option.map_none, reduceCtorEq, Option.some.injEq] at same
  · exact .misplaced _
  · exact .pure ⟨same, shared _ hd⟩

theorem updateOpenTable {f f' : TableDefinition → TableDefinition}
    (h : ∀ d d', SameDefinition L d d' → SameDefinition L (f d) (f' d')) :
    Parallel L Eq (updateOpenTable f) (updateOpenTable f') := by
  refine .bind .openTable fun d d' hd => .modify fun w w' hw => ?_
  obtain ⟨same, shared⟩ := h d d' hd
  exact { hw with
    tableDefinition := congrArg some same
    shared := by rintro _ ⟨⟩; exact shared }

theorem takeOpenTable : Parallel L (SameDefinition L) takeOpenTable takeOpenTable := by
  refine .bind .get fun w w' hw => ?_
  have same := hw.tableDefinition
  have shared := hw.shared
  cases hd : w.tableDefinition <;> cases hd' : w'.tableDefinition <;> rw [hd, hd'] at same <;>
    simp only [Option.map_some, Option.map_none, reduceCtorEq, Option.some.injEq] at same
  · exact .breach _
  · refine .seq (.modify fun _ _ hw => ?_) fun _ => .pure ⟨same, shared _ hd⟩
    exact { hw with
      tableDefinition := rfl
      shared := by rintro _ ⟨⟩ }

theorem beginTable {n : NodeId} (hn : L.nodes n) {name name' : String}
    (hname : L.text name = L.text name') (kind : TableKind) :
    Parallel L Eq (beginTable n name kind) (beginTable n name' kind) := by
  refine .bind .get fun w w' hw => ?_
  have pending : w.tableDefinition.isSome = w'.tableDefinition.isSome := by
    simpa using congrArg Option.isSome hw.tableDefinition
  rw [pending]
  refine .ite Iff.rfl (.misplaced _) ?_
  refine .bind .theIndex fun x y hx => ?_
  have next := Arena.next_of_map_eq hx.tables
  dsimp only
  rw [next]
  refine .seq (.modifyIndex fun x y hx => { hx with
    tables := Arena.map_push_congr hx.tables ?_
    shared := ?_ }) fun _ => ?_
  · simp only [Likeness.table, hname]
  · intro t table ht m hm
    rcases Arena.get?_push_cases ht with ⟨-, rfl⟩ | hold
    · cases hm
      exact hn
    · exact hx.shared t table hold m hm
  refine .seq (.createSymbol _ _ hname rfl false) fun buffer => .seq (.attach buffer) fun _ => ?_
  refine .seq (.beginDefinition buffer) fun _ => .seq (.modify fun w w' hw => ?_) fun _ => .pure rfl
  exact { hw with
    tableDefinition := rfl
    shared := by rintro _ ⟨⟩; exact ⟨by simp, by simp⟩ }

/-! ### Fields and indexes of a table -/

/-- A table that is frozen takes nothing more. -/
theorem unfrozen (t : TableId) {k k' : WalkM α} (h : Parallel L Eq k k') :
    Parallel L Eq
      (do let table ← Walk.tableAt t
          if table.frozen then Walk.breach (.frozenTable table.name)
          k)
      (do let table ← Walk.tableAt t
          if table.frozen then Walk.breach (.frozenTable table.name)
          k') := by
  refine .bind (.tableAt t) fun v v' hv => ?_
  have frozen : v.frozen = v'.frozen := (congrArg Table.frozen hv.1 :)
  have name : L.text v.name = L.text v'.name := (congrArg Table.name hv.1 :)
  rw [frozen]
  refine .ite Iff.rfl (.seq (.throw ?_) fun _ => h) h
  simp only [Likeness.fault, Likeness.breach, name]

theorem appendFields (t : TableId) (fields : List FieldId) :
    Parallel L Eq (appendFields t fields) (appendFields t fields) :=
  .unfrozen t <| .updateTable t
    (fun _ _ hv => (congrArg (fun v => { v with fields := v.fields ++ fields }) hv :)) fun _ => rfl

theorem appendIndex {index index' : TableIndex} (h : L.tableIndex index = L.tableIndex index') :
    Parallel L Eq (appendIndex index) (appendIndex index') := by
  have table : index.table = index'.table := (congrArg TableIndex.table h :)
  unfold Walk.appendIndex
  rw [table]
  refine .unfrozen _ <| .bind .theIndex fun x y hx => ?_
  have next := Arena.next_of_map_eq hx.indexes
  dsimp only
  rw [next]
  refine .seq (.modifyIndex fun x y hx =>
    { hx with indexes := Arena.map_push_congr hx.indexes h }) fun _ => ?_
  refine .seq (.updateTable _ (fun v v' hv => ?_) fun _ => rfl) fun _ => .pure rfl
  exact (congrArg (fun v => { v with indexes := v.indexes ++ [y.indexes.next] }) hv :)

theorem copyFields (source : TableId) :
    Parallel L Eq (copyFields source) (copyFields source) := by
  refine .seq (.updateOpenTable fun d d' hd =>
    ⟨(congrArg (fun d => { d with like := some source }) hd.1 :), hd.2⟩) fun _ => ?_
  refine .bind .openTable fun d d' hd => .bind (.tableAt source) fun v v' hv => ?_
  have fields : v.fields = v'.fields := (congrArg Table.fields hv.1 :)
  rw [fields, hd.table]
  refine .bind (.mapM_same fun f _ => .fieldAt f) fun fs fs' hfs => .bind .theIndex fun x y hx => ?_
  have copies : (fs.map fun f => { f with table := some d'.table }).map L.field =
      (fs'.map fun f => { f with table := some d'.table }).map L.field := by
    rw [List.map_map, List.map_map, ← List.forall₂_eq_eq_eq, List.forall₂_map_left_iff,
      List.forall₂_map_right_iff]
    exact hfs.imp fun _ _ hf => congrArg (fun f : Field => { f with table := some d'.table }) hf
  have ids : x.fields.nextIds (fs.map fun f => { f with table := some d'.table }).length =
      y.fields.nextIds (fs'.map fun f => { f with table := some d'.table }).length := by
    rw [Arena.nextIds, Arena.size_of_map_eq hx.fields, Arena.nextIds, List.length_map,
      List.length_map, hfs.length_eq]
  dsimp only
  rw [ids]
  refine .seq (.modifyIndex fun x y hx =>
    { hx with fields := Arena.map_pushAll_congr hx.fields copies }) fun _ => ?_
  exact .appendFields _ _

theorem beginField (n : NodeId) {name name' : String} (hname : L.text name = L.text name') :
    Parallel L Eq (beginField n name) (beginField n name') := by
  refine .bind .openTable fun d d' hd => .bind .theIndex fun x y hx => ?_
  have next := Arena.next_of_map_eq hx.fields
  dsimp only
  rw [hd.buffer, next]
  refine .seq (.modifyIndex fun x y hx => { hx with
    fields := Arena.map_push_congr hx.fields ?_ }) fun _ => ?_
  · simp only [Likeness.field, hname]
  refine .seq (.fieldBuffer _ _) fun s => .seq (.annotate n _) fun _ => ?_
  refine .seq (.updateSymbol s fun v v' hv =>
    (congrArg (fun v => { v with definitionNode := some n }) hv :)) fun _ => ?_
  exact .seq (.beginDefinition s) fun _ => .pure rfl

theorem joinField (field : FieldId) (s : SymbolId) :
    Parallel L Eq (joinField field s) (joinField field s) := by
  refine .seq (.endDefinition s) fun _ => .bind .openTable fun d d' hd => ?_
  rw [hd.table]
  refine .seq (.updateField field fun v v' hv =>
    (congrArg (fun v => { v with table := some d'.table }) hv :)) fun _ => ?_
  exact .appendFields _ _

/-- The fields that an index clause names, at nodes that both trees have. -/
theorem indexFields_alike (h : env.Alike L env') {fs : List NodeId} (shared : ∀ f ∈ fs, L.nodes f)
    (i : IndexId) :
    (fs.map fun f => (⟨i, env.tree.text f, f⟩ : PendingIndexField)).map L.pendingField =
      (fs.map fun f => (⟨i, env'.tree.text f, f⟩ : PendingIndexField)).map L.pendingField := by
  rw [List.map_map, List.map_map]
  refine List.map_congr_left fun f hf => ?_
  simp only [Function.comp_apply, Likeness.pendingField, h.text (shared f hf)]

theorem addIndex (h : env.Alike L env') {n : NodeId} (hn : L.nodes n) :
    Parallel L Eq (addIndex env n) (addIndex env' n) := by
  refine .bind .openTable fun d d' hd => ?_
  dsimp only
  rw [hd.table, h.hasKeyword hn, h.hasKeyword hn, h.hasKeyword hn, h.childrenOfKind hn]
  refine .seq (.appendIndex ?_) fun i => .updateOpenTable fun d d' hd => ?_
  · simp only [Likeness.tableIndex, h.definedName hn]
  have shared : ∀ f ∈ env'.tree.childrenOfKind n .indexField, L.nodes f := fun f hf =>
    h.nodes_childrenOfKind hn (h.childrenOfKind hn _ ▸ hf)
  refine ⟨?_, hd.2.1, ?_⟩
  · have old : d.indexFields.map L.pendingField = d'.indexFields.map L.pendingField :=
      (congrArg TableDefinition.indexFields hd.1 :)
    have useIndex := (congrArg TableDefinition.useIndex hd.1 :)
    simp only [Likeness.definition, TableDefinition.mk.injEq, List.map_append]
    exact ⟨hd.table, hd.buffer, hd.like, useIndex, trivial,
      congr_arg₂ (· ++ ·) old (indexFields_alike h shared i)⟩
  · intro p hp
    rcases List.mem_append.1 hp with hp | hp
    · exact hd.2.2 p hp
    · obtain ⟨f, hf, rfl⟩ := List.mem_map.1 hp
      exact shared f hf

/-! ### The end of a definition -/

theorem correspondingFields (table : TableId) {index index' : TableIndex}
    (h : L.tableIndex index = L.tableIndex index') (location : Location) (fields : List FieldId) :
    Parallel L Eq (correspondingFields table index location fields)
      (correspondingFields table index' location fields) := by
  induction fields with
  | nil => exact .pure rfl
  | cons f rest ih =>
    refine .bind (.fieldAt f) fun v v' hv => .bind .theIndex fun x y hx => ?_
    have name : L.text v.name = L.text v'.name := (congrArg Field.name hv :)
    rw [hx.fieldNamed? table (Likeness.fold_congr name)]
    cases y.fieldNamed? table v'.name with
    | some found => exact .seq ih fun _ => .pure rfl
    | none =>
      refine .seq (.report ?_) fun _ => ih
      exact Likeness.diagnostic_skippedIndexField name (congrArg TableIndex.name h :) _

theorem copyIndex (h : env.Alike L env') (source : IndexId) (table : TableId) :
    Parallel L Eq (copyIndex env source table) (copyIndex env' source table) := by
  refine .bind (.indexAt source) fun i i' hi => .bind (.tableAt table) fun v v' hv => ?_
  have fields : i.fields = i'.fields := (congrArg TableIndex.fields hi :)
  have node : v.definitionNode = v'.definitionNode := (congrArg Table.definitionNode hv.1 :)
  have shared := hv.2
  cases hn : v.definitionNode with
  | none =>
    rw [← node, hn]
    exact .breach _
  | some n =>
    rw [← node, hn, fields]
    dsimp only
    rw [h.location (shared n hn)]
    refine .seq (.correspondingFields table hi _ _) fun fs => .seq (.appendIndex ?_) fun _ =>
      .pure rfl
    exact (congrArg (fun i => { i with table, fields := fs }) hi :)

/-- A USE-INDEX clause without an index is reported. -/
theorem reportUseIndex (h : env.Alike L env') (t : TableId) {p p' : String × NodeId}
    (hp : L.text p.1 = L.text p'.1 ∧ p.2 = p'.2) (hn : L.nodes p.2) :
    Parallel L Eq
      (do Walk.report (.unknownUseIndex p.1 (← Walk.tableAt t).name (env.tree.location p.2)))
      (do
        Walk.report (.unknownUseIndex p'.1 (← Walk.tableAt t).name (env'.tree.location p'.2))) := by
  refine .bind (.tableAt t) fun v v' hv => .report ?_
  rw [h.location hn, hp.2]
  exact Likeness.diagnostic_unknownUseIndex hp.1 (congrArg Table.name hv.1 :) _

theorem copyNamedIndexes (h : env.Alike L env') (source table : TableId)
    {names names' : List (String × NodeId)}
    (hnames : List.Forall₂ (fun p p' => L.text p.1 = L.text p'.1 ∧ p.2 = p'.2) names names')
    (shared : ∀ p ∈ names, L.nodes p.2) :
    Parallel L Eq (copyNamedIndexes env source table names)
      (copyNamedIndexes env' source table names') := by
  refine .forM hnames fun p p' hp mem => .bind .theIndex fun x y hx => ?_
  rw [hx.indexNamed? source (Likeness.fold_congr hp.1)]
  cases y.indexNamed? source p'.1 with
  | some index => exact .copyIndex h index table
  | none => exact .reportUseIndex h source hp (shared p mem)

theorem inheritIndexes (h : env.Alike L env') {d d' : TableDefinition}
    (hd : SameDefinition L d d') :
    Parallel L Eq (inheritIndexes env d) (inheritIndexes env' d') := by
  have like := hd.like
  have named : d.useIndex.isEmpty = d'.useIndex.isEmpty := by
    rw [Bool.eq_iff_iff, List.isEmpty_iff_length_eq_zero, hd.useIndex.length_eq,
      List.isEmpty_iff_length_eq_zero]
  unfold Walk.inheritIndexes
  rw [like, named, hd.hasExplicitIndex, hd.table]
  cases d'.like with
  | some source =>
    refine .ite Iff.rfl (.copyNamedIndexes h source _ hd.useIndex hd.2.1) ?_
    refine .ite Iff.rfl ?_ (.pure rfl)
    refine .bind (.tableAt source) fun v v' hv => ?_
    have indexes : v.indexes = v'.indexes := (congrArg Table.indexes hv.1 :)
    rw [indexes]
    exact .forM_same fun i _ => .copyIndex h i _
  | none => exact .forM hd.useIndex fun p p' hp mem => .reportUseIndex h _ hp (hd.2.1 p mem)

theorem resolveIndexField (h : env.Alike L env') (table : TableId) {p p' : PendingIndexField}
    (hp : L.pendingField p = L.pendingField p') (hn : L.nodes p.node) :
    Parallel L Eq (resolveIndexField env table p) (resolveIndexField env' table p') := by
  have name : L.text p.name = L.text p'.name := (congrArg PendingIndexField.name hp :)
  have index : p.index = p'.index := (congrArg PendingIndexField.index hp :)
  have node : p.node = p'.node := (congrArg PendingIndexField.node hp :)
  refine .bind .theIndex fun x y hx => ?_
  rw [hx.fieldNamed? table (Likeness.fold_congr name), index]
  cases y.fieldNamed? table p'.name with
  | some found =>
    exact .updateTableIndex _ fun v v' hv =>
      (congrArg (fun v => { v with fields := v.fields ++ [found.item] }) hv :)
  | none =>
    refine .bind (.indexAt _) fun i i' hi => .report ?_
    rw [h.location hn, node]
    exact Likeness.diagnostic_skippedIndexField name (congrArg TableIndex.name hi :) _

theorem finishTable (h : env.Alike L env') {d d' : TableDefinition} (hd : SameDefinition L d d') :
    Parallel L Eq (finishTable env d) (finishTable env' d') := by
  refine .seq (.inheritIndexes h hd) fun _ => ?_
  rw [hd.table]
  refine .seq (.forM hd.indexFields fun p p' hp mem => ?_) fun _ => ?_
  · exact .resolveIndexField h _ hp (hd.2.2 p mem)
  · exact .updateTable _ (fun v v' hv => (congrArg (fun v => { v with frozen := true }) hv :))
      fun _ => rfl

/-! ### Actions -/

theorem recordBuffer (record : NodeId) :
    Parallel L Eq (recordBuffer record) (recordBuffer record) := by
  refine .seq (.noteOf record) fun note => ?_
  cases note.symbol with
  | some buffer => exact .pure rfl
  | none => exact .breach _

theorem bufferTable (buffer : SymbolId) :
    Parallel L Eq (bufferTable buffer) (bufferTable buffer) := by
  refine .bind .theIndex fun x y hx => ?_
  rw [hx.bufferTable?]
  cases y.bufferTable? buffer with
  | some table => exact .pure rfl
  | none => exact .breach _

theorem copyFieldType (h : env.Alike L env') {field : NodeId} (hn : L.nodes field)
    (target : SymbolId) :
    Parallel L Eq (copyFieldType env field target) (copyFieldType env' field target) := by
  refine .seq (.noteOf field) fun note => ?_
  cases note.symbol with
  | some source => exact .copyType source target
  | none =>
    refine .report ?_
    rw [h.location hn]
    exact Likeness.diagnostic_unresolvedLikeSource (h.text hn) _

theorem setColumns (browse : SymbolId) (columns : List NodeId) :
    Parallel L Eq (setColumns browse columns) (setColumns browse columns) := by
  refine .bind .get fun w w' hw => ?_
  have notes : ∀ c, (w.notes.get c).symbol = (w'.notes.get c).symbol := fun c => by
    rw [hw.notes c]
  dsimp only
  simp only [notes]
  refine .updateSymbol browse fun v v' hv => ?_
  have hkind := UnitIndex.Alike.kind_congr hv
  cases hk : v.kind <;> cases hk' : v'.kind <;> simp only [hk, hk', Likeness.kind, reduceCtorEq,
    SymbolKind.browse.injEq, Browse.mk.injEq] at hkind ⊢
  case browse.browse b b' =>
    refine Likeness.symbol_congr hv ?_
    simp only [Likeness.kind, hkind.1]
  all_goals exact hv

theorem createBuffer (h : env.Alike L env') {n : NodeId} (hn : L.nodes n)
    (record : Option NodeId) :
    Parallel L Eq (createBuffer env n record) (createBuffer env' n record) := by
  cases record with
  | none => exact .misplaced _
  | some record =>
    refine .seq (.recordBuffer record) fun buffer => .seq (.bufferTable buffer) fun table => ?_
    exact .seq .currentScope fun scope => .createSymbol scope _ (h.definedName hn) rfl false

theorem addBufferParameter (h : env.Alike L env') {n : NodeId} (hn : L.nodes n)
    (record : Option NodeId) :
    Parallel L Eq (addBufferParameter env n record) (addBufferParameter env' n record) := by
  refine .seq (.createBuffer h hn record) fun buffer => .seq (.addParameter _ _ _) fun _ => ?_
  refine .seq .currentScope fun scope => .bind (.scopeAt scope) fun v v' hv => ?_
  have around : v.rootBlock = v'.rootBlock := (congrArg Scope.rootBlock hv :)
  rw [around]
  exact .seq (.addBufferScope _ _ _) fun _ => .pure rfl

theorem bindStrongly (record : NodeId) :
    Parallel L Eq (bindStrongly record) (bindStrongly record) :=
  .seq (.recordBuffer record) fun _ => .seq .currentBlock fun _ =>
    .seq (.addBufferScope _ _ _) fun _ => .annotate record _

theorem countUse (field : NodeId) (q : Qualifier) :
    Parallel L Eq (countUse field q) (countUse field q) := by
  refine .seq (.noteOf field) fun note => ?_
  cases note.symbol with
  | some s => exact .noteReference s q
  | none => exact .pure rfl

theorem addTableParameter (record : NodeId) (mode : ParameterMode) :
    Parallel L Eq (addTableParameter record mode) (addTableParameter record mode) := by
  refine .seq (.recordBuffer record) fun buffer => .bind (.symbolAt buffer) fun v v' hv => ?_
  have attached : v.attached = v'.attached := (congrArg Symbol.attached hv :)
  rw [attached]
  exact .seq (.demand _ _) fun _ => .addParameter buffer mode false

end Parallel

/-- The words that the action reads are at shared nodes. -/
def Action.Shared (L : Likeness) : Action → Prop
  | .copyType field _ => L.nodes field
  | .defineBuffer definition _ | .addBufferParameter definition _ => L.nodes definition
  | _ => True

namespace Parallel

theorem perform (h : env.Alike L env') {a : Action} (ha : a.Shared L) :
    Parallel L Eq (perform env a) (perform env' a) := by
  cases a with
  | leaveScope => exact .leaveScope
  | leaveBlock => exact .leaveBlock
  | endDefinition s => exact .endDefinition s
  | attach s => exact .attach s
  | addParameter s mode => exact .addParameter s mode true
  | closeEvent outer => exact .modify fun _ _ hw => { hw with openEvent := rfl }
  | copyType field target => exact .copyFieldType h ha target
  | setColumns browse columns => exact .setColumns browse columns
  | copyFields record =>
    exact .seq (.recordBuffer record) fun buffer => .seq (.bufferTable buffer) fun t =>
      .copyFields t
  | joinField field s => exact .joinField field s
  | closeTable buffer =>
    exact .bind .takeOpenTable fun d d' hd => .seq (.endDefinition buffer) fun _ =>
      .finishTable h hd
  | abandonTable buffer => exact .bind .takeOpenTable fun _ _ _ => .endDefinition buffer
  | defineBuffer n record =>
    exact .seq (.createBuffer h ha record) fun buffer => .attach buffer
  | addBufferParameter n record => exact .addBufferParameter h ha record
  | addTableParameter record mode => exact .addTableParameter record mode
  | bindStrongly record => exact .bindStrongly record
  | countUse field q => exact .countUse field q

theorem performAll (h : env.Alike L env') {as : List Action} (ha : ∀ a ∈ as, a.Shared L) :
    Parallel L Eq (performAll env as) (performAll env' as) :=
  .forM_same fun a mem => .perform h (ha a mem)

end Parallel

end Walk

end AblResolve
