import AblResolve.Proofs.Lookup
import AblResolve.Walk.TableDefinition
/-!
The operations of a table definition. Outside of one, a table clause is misplaced; inside, its
operations never fail: the table is not frozen before the definition ends, and what its clauses
leave for the end is there.
-/
namespace AblResolve.Walk

open UnitIndex

variable (env : Env) (n : NodeId) {w : Walk} {E : Fault → Walk → Prop}

/-! ### The open definition -/

section OpenTable

variable {d : TableDefinition} (h : w.tableDefinition = some d)
include h

theorem ends_openTable {Q : TableDefinition → Walk → Prop} :
    Ends openTable w E Q ↔ Q d w := by
  unfold openTable
  rw [ends_bind, ends_get, h]
  exact ends_pure d

theorem ends_updateOpenTable {f : TableDefinition → TableDefinition} {Q : PUnit → Walk → Prop} :
    Ends (updateOpenTable f) w E Q ↔ Q ⟨⟩ { w with tableDefinition := some (f d) } := by
  unfold updateOpenTable
  rw [ends_bind, ends_openTable h, ends_modify]

theorem ends_takeOpenTable {Q : TableDefinition → Walk → Prop} :
    Ends takeOpenTable w E Q ↔ Q d { w with tableDefinition := none } := by
  unfold takeOpenTable
  rw [ends_bind, ends_get, h]
  exact Iff.rfl

theorem Sound.openBuffer (hs : Sound w) :
    w.index.bufferTable? d.buffer = some d.table ∧ w.index.HasNode d.table := by
  apply hs.standing.table d.table d.buffer
  simp [Walk.frame, h]

end OpenTable

theorem exists_tableDefinition {t : TableId} {b : SymbolId} (h : w.frame.table = some (t, b)) :
    ∃ d, w.tableDefinition = some d ∧ d.table = t ∧ d.buffer = b := by
  obtain ⟨d, hd, heq⟩ := Option.map_eq_some_iff.1 h
  cases heq
  exact ⟨d, hd, rfl, rfl⟩

theorem ends_openTable_none {Q : TableDefinition → Walk → Prop} (h : w.tableDefinition = none) :
    Ends openTable w E Q ↔ E (.misplaced .tableClause) w := by
  unfold openTable
  rw [ends_bind, ends_get, h]
  exact Iff.rfl

theorem openTable_ok {d : TableDefinition} {w' : Walk} (hok : openTable w = .ok d w') :
    w.tableDefinition = some d ∧ w' = w := by
  unfold openTable at hok
  obtain ⟨u, w₁, hu, hrest⟩ := bind_ok.1 hok
  cases hu
  cases hopen : w.tableDefinition with
  | none =>
    rw [hopen] at hrest
    cases hrest
  | some d' =>
    rw [hopen] at hrest
    cases hrest
    exact ⟨rfl, rfl⟩

/-- A table definition begins with a table, its default buffer and a definition of the buffer. -/
theorem ends_beginTable (hs : Sound w) (name : String) {kind : TableKind} (own : kind ≠ .schema)
    (closed : w.tableDefinition = none)
    (hnode : (env.tree.kind n).isName = false ∧ env.tree.kind n ≠ .field) :
    Ends (beginTable n name kind) w Never fun b w' => Runs env n w w' ∧
      w'.index.IsBuffer b ∧ ∃ t,
      w'.frame = { w.frame with
        definitions := b :: w.frame.definitions, table := some (t, b) } := by
  let x := w.index.withTable kind n name
  have hget := Arena.get?_push_next w.index.symbols
    { name, scope := rootScope, definitionNode := some n,
      kind := .tableBuffer { table := w.index.tables.next, isDefault := true } }
  have begun : Turn w { w with
      index := x
      openDefinitions := w.index.symbols.next :: w.openDefinitions
      tableDefinition := some { table := w.index.tables.next, buffer := w.index.symbols.next } } :=
    .beginTable n name own closed
  have coherent : x.Coherent := (begun.sound hs).coherent
  have marked : Runs env n w { w with
      index := x
      notes := w.notes.update n fun a => { a with symbol := some w.index.symbols.next }
      openDefinitions := w.index.symbols.next :: w.openDefinitions
      tableDefinition := some { table := w.index.tables.next, buffer := w.index.symbols.next } } :=
    begun.runs.tail (.inl (.mark (.define (Arena.lt_size_of_get? hget) hnode.1
      fun hfield => absurd hfield hnode.2)))
  unfold beginTable createSymbol beginDefinition
  rw [ends_bind, ends_get, closed]
  simp only [Option.isSome_none, Bool.false_eq_true, if_false, ends_bind, ends_theIndex,
    ends_modifyIndex, ends_annotate, ends_pure, ends_modify]
  rw [ends_attach_eq (by exact coherent) (by exact hget) rfl]
  have isBuffer : x.IsBuffer w.index.symbols.next :=
    ⟨_, bufferTable?_eq_some.2 ⟨_, _, hget, rfl, rfl⟩⟩
  exact ⟨marked.tail (.inl (.index (.attach hget rfl fun noBuffer => by cases noBuffer))),
    isBuffer.extends (extends_attached _ _ _), w.index.tables.next, rfl⟩

theorem ends_beginTable_nested (name : String) (kind : TableKind) {d : TableDefinition}
    {Q : SymbolId → Walk → Prop} (h : w.tableDefinition = some d) :
    Ends (beginTable n name kind) w E Q ↔ E (.misplaced .nestedTable) w := by
  unfold beginTable
  rw [ends_bind, ends_get, h]
  exact Iff.rfl

/-! ### Fields and indexes -/

theorem ends_appendFields {t : TableId} {fields : List FieldId} {Q : PUnit → Walk → Prop}
    (h : w.index.Unfrozen t) :
    Ends (appendFields t fields) w E Q ↔ Q ⟨⟩ { w with index := w.index.withFields t fields } := by
  obtain ⟨table, htable, hfrozen⟩ := h
  unfold appendFields
  rw [ends_bind, ends_tableAt htable, hfrozen]
  simp only [Bool.false_eq_true, if_false]
  exact ends_updateTable (Arena.lt_size_of_get? htable)

theorem ends_appendIndex {index : TableIndex} (h : w.index.Unfrozen index.table)
    (fields : ∀ f ∈ index.fields, w.index.HasField index.table f)
    (shapes : (env.tree.kind n).shapesTable) :
    Ends (appendIndex index) w Never fun i w' => Moves env n w w' ∧
      w'.index.indexes.get? i = some index := by
  obtain ⟨table, htable, hfrozen⟩ := h
  unfold appendIndex
  rw [ends_bind, ends_tableAt htable, hfrozen]
  simp only [Bool.false_eq_true, if_false]
  rw [ends_bind, ends_theIndex, ends_bind, ends_modifyIndex, ends_bind,
    ends_updateTable (by exact Arena.lt_size_of_get? htable), ends_pure]
  exact ⟨.single (.index (.createIndex ⟨table, htable, hfrozen⟩ fields shapes)),
    Arena.get?_push_next _ _⟩

theorem ends_fieldsAt {fields : List FieldId} (h : ∀ f ∈ fields, f.val < w.index.fields.size) :
    Ends (fields.mapM fieldAt) w Never fun found w' => w' = w ∧
      ∀ v ∈ found, ∃ i, w.index.fields.get? i = some v := by
  induction fields with
  | nil => exact ⟨rfl, by simp⟩
  | cons f rest ih =>
    obtain ⟨field, hfield⟩ := Arena.exists_get? (h f List.mem_cons_self)
    rw [List.mapM_cons, ends_bind, ends_fieldAt hfield, ends_bind]
    refine (ih fun g hg => h g (List.mem_cons_of_mem _ hg)).imp fun _ w' ⟨hw, found⟩ => ?_
    rw [ends_pure]
    exact ⟨hw, List.forall_mem_cons.2 ⟨⟨f, hfield⟩, found⟩⟩

theorem ends_copyFields (hs : Sound w) {d : TableDefinition} {source : TableId}
    (h : w.tableDefinition = some d) (hsource : source.val < w.index.tables.size)
    (shapes : (env.tree.kind n).shapesTable) :
    Ends (copyFields source) w Never fun _ w' => Moves env n w w' := by
  obtain ⟨table, htable⟩ := Arena.exists_get? hsource
  have hlike : Deferred w.index { d with like := some source } := by
    refine ⟨fun s hs => ?_, (hs.deferred d h).indexFields⟩
    cases hs
    exact hsource
  have clause : Move env n w { w with tableDefinition := some { d with like := some source } } :=
    .clause h rfl rfl hlike shapes
  unfold copyFields
  rw [ends_bind, ends_updateOpenTable h, ends_bind, ends_openTable rfl, ends_bind,
    ends_tableAt (by exact htable), ends_bind]
  refine (ends_fieldsAt (by exact (hs.coherent.tables htable).fields)).imp ?_
  rintro fields _ ⟨rfl, found⟩
  rw [ends_bind, ends_theIndex, ends_bind, ends_modifyIndex,
    ends_appendFields (by exact hs.unfrozen d h)]
  refine .tail (.single clause) (.index (.copyFields (hs.unfrozen d h) ?_ ?_)) <;> intro f hf
  · obtain ⟨field, -, rfl⟩ := List.mem_map.1 hf
    rfl
  · obtain ⟨field, hmem, rfl⟩ := List.mem_map.1 hf
    obtain ⟨i, hi⟩ := found field hmem
    exact ⟨i, field, hi, rfl⟩

/-- The walk after a field of the table that buffer `owner`, `b` carries has begun on `n`: the
symbol of the field has moved to the node. -/
def withOpenField (w : Walk) (n : NodeId) (buffer : SymbolId) (owner : Symbol) (b : TableBuffer)
    (name : String) : Walk :=
  let x := w.index.withField buffer owner b name
  let symbol := w.index.symbols.next
  { w with
    index := {
      x with symbols := x.symbols.update symbol fun s => { s with definitionNode := some n } }
    notes := w.notes.update n fun a => { a with symbol := some symbol }
    openDefinitions := symbol :: w.openDefinitions }

section BeginField

variable {d : TableDefinition} {owner : Symbol} {b : TableBuffer}

theorem get?_withField (x : UnitIndex) {buffer : SymbolId} (name : String)
    (howner : x.symbols.get? buffer = some owner) :
    (x.withField buffer owner b name).symbols.get? x.symbols.next = some
      { name, scope := owner.scope, definitionNode := none, attached := true,
        kind := .fieldBuffer ⟨buffer, x.fields.next⟩ } := by
  have hne : buffer ≠ x.symbols.next := by
    intro heq
    exact Nat.lt_irrefl _ (heq ▸ Arena.lt_size_of_get? howner)
  simp [withField, reached, Arena.get?_update, hne]

theorem ends_beginField_eq (hs : Sound w) (name : String) {Q : FieldId × SymbolId → Walk → Prop}
    (h : w.tableDefinition = some d) (howner : w.index.symbols.get? d.buffer = some owner)
    (hbuffer : owner.kind = .tableBuffer b) :
    Ends (beginField n name) w E Q ↔
      Q (w.index.fields.next, w.index.symbols.next) (w.withOpenField n d.buffer owner b name) := by
  have hlt := Arena.lt_size_of_get? (get?_withField (b := b) w.index name howner)
  unfold beginField beginDefinition
  rw [ends_bind, ends_openTable h, ends_bind, ends_theIndex, ends_bind, ends_modifyIndex,
    ends_bind, ends_fieldBuffer_new (by exact howner) hbuffer
      (hs.coherent.field?_next howner hbuffer) (Arena.get?_push_next _ _), ends_bind,
    ends_annotate, ends_bind, ends_updateSymbol (by exact hlt), ends_bind, ends_modify, ends_pure]
  exact Iff.rfl

/-- A field only begins in a table definition. -/
theorem beginField_ok (hs : Sound w) {name : String} {p : FieldId × SymbolId} {w' : Walk}
    (hok : beginField n name w = .ok p w') :
    ∃ (buffer : SymbolId) (owner : Symbol) (b : TableBuffer),
      w.index.symbols.get? buffer = some owner ∧ owner.kind = .tableBuffer b ∧
      w' = w.withOpenField n buffer owner b name := by
  obtain ⟨d, w₁, hopen, -⟩ := bind_ok.1 hok
  obtain ⟨hd, -⟩ := openTable_ok hopen
  obtain ⟨owner, b, howner, hbuffer, -⟩ := bufferTable?_eq_some.1 (hs.openBuffer hd).1
  refine ⟨d.buffer, owner, b, howner, hbuffer, ?_⟩
  exact ((ends_beginField_eq n hs name hd howner hbuffer).2 rfl :
    Ends (beginField n name) w Never fun _ w' => w' = _).ok hok

end BeginField

theorem ends_beginField (hs : Sound w) (name : String) {d : TableDefinition}
    (h : w.tableDefinition = some d) (hkind : env.tree.kind n = .tableField) :
    Ends (beginField n name) w Never fun p w' => Runs env n w w' ∧
      w'.index.asFieldBuffer? p.2 = some ⟨d.buffer, p.1⟩ ∧
      w'.frame = { w.frame with definitions := p.2 :: w.frame.definitions } := by
  obtain ⟨owner, b, howner, hbuffer, -⟩ := bufferTable?_eq_some.1 (hs.openBuffer h).1
  let x := w.index.withField d.buffer owner b name
  have begun : Turn w { w with
      index := x, openDefinitions := w.index.symbols.next :: w.openDefinitions } :=
    .beginField name howner hbuffer
  have hget := get?_withField (b := b) w.index name howner
  have marked : Runs env n w { w with
      index := x
      openDefinitions := w.index.symbols.next :: w.openDefinitions
      notes := w.notes.update n fun a => { a with symbol := some w.index.symbols.next } } :=
    begun.runs.tail (.inl (.mark (.define (Arena.lt_size_of_get? hget) (by simp [hkind])
      (by simp [hkind]))))
  have relocated : x.Change (w.index.symbols.next :: w.openDefinitions)
      (env.tree.kind n).isTypeClause (env.tree.kind n).shapesTable _ :=
    .revise (f := fun s => { s with definitionNode := some n }) hget (.relocate rfl rfl n)
  have reaches := relocated.extends.asFieldBuffer? (asFieldBuffer?_eq_some.2 ⟨_, hget, rfl⟩)
  exact (ends_beginField_eq n hs name h howner hbuffer).2
    ⟨marked.tail (.inl (.index relocated)), reaches, rfl⟩

theorem ends_joinField (hs : Sound w) {d : TableDefinition} {s : SymbolId} {b : FieldBuffer}
    {rest : List SymbolId} (h : w.tableDefinition = some d)
    (hdefinitions : w.openDefinitions = s :: rest) (reaches : w.index.asFieldBuffer? s = some b)
    (own : b.buffer = d.buffer) :
    Ends (joinField b.field s) w Never fun _ w' => Runs env n w w' ∧
      w'.frame = { w.frame with definitions := rest } := by
  obtain ⟨symbol, hsymbol, hkind⟩ := asFieldBuffer?_eq_some.1 reaches
  have ok := (hs.coherent.symbols hsymbol).kind
  rw [hkind] at ok
  unfold joinField
  rw [ends_bind, ends_endDefinition hdefinitions, ends_bind, ends_openTable (by exact h), ends_bind,
    ends_updateField (by exact ok.2.2), ends_appendFields (by exact hs.unfrozen d h)]
  have owned : w.index.bufferTable? b.buffer = some d.table := own ▸ (hs.openBuffer h).1
  exact ⟨(Turn.joinField hdefinitions reaches (hs.unfrozen d h) owned).runs, rfl⟩

theorem ends_addIndex (hs : Sound w) {d : TableDefinition} (h : w.tableDefinition = some d)
    (shapes : (env.tree.kind n).shapesTable) :
    Ends (addIndex env n) w Never fun _ w' => Moves env n w w' := by
  unfold addIndex
  dsimp only
  rw [ends_bind, ends_openTable h, ends_bind]
  refine (ends_appendIndex env n (by exact hs.unfrozen d h) (by simp) shapes).imp ?_
  rintro i w₁ ⟨moves, hi⟩
  have htable : w₁.frame.table = some (d.table, d.buffer) := by
    rw [moves.frame]
    simp [Walk.frame, h]
  obtain ⟨d₁, h₁, hsame, -⟩ := exists_tableDefinition htable
  rw [ends_updateOpenTable h₁]
  have hdeferred := (moves.runs.sound hs).deferred d₁ h₁
  refine moves.tail (.clause h₁ rfl rfl ⟨hdeferred.like, fun p hp => ?_⟩ shapes)
  rcases List.mem_append.1 hp with hp | hp
  · exact hdeferred.indexFields p hp
  · obtain ⟨c, -, rfl⟩ := List.mem_map.1 hp
    exact ⟨_, hi, hsame.symm⟩

/-! ### The end of a definition -/

section Shapes

variable (shapes : (env.tree.kind n).shapesTable)
include shapes

theorem ends_correspondingFields (hs : Sound w) {t : TableId} {index : TableIndex}
    {location : Location} {fields : List FieldId}
    (h : ∀ f ∈ fields, f.val < w.index.fields.size) :
    Ends (correspondingFields t index location fields) w Never fun found w' =>
      Moves env n w w' ∧ ∀ f ∈ found, w'.index.HasField t f := by
  induction fields generalizing w with
  | nil => exact ⟨.refl, by simp⟩
  | cons f rest ih =>
    obtain ⟨field, hfield⟩ := Arena.exists_get? (h f List.mem_cons_self)
    have hrest : ∀ g ∈ rest, g.val < w.index.fields.size :=
      fun g hg => h g (List.mem_cons_of_mem _ hg)
    unfold correspondingFields
    rw [ends_bind, ends_fieldAt hfield, ends_bind, ends_theIndex]
    cases hfind : w.index.fieldNamed? t field.name with
    | some found =>
      dsimp only
      rw [ends_bind]
      refine (ih hs hrest).imp ?_
      rintro others w' ⟨moves, hothers⟩
      refine ⟨moves, fun g hg => ?_⟩
      rcases List.mem_cons.1 hg with rfl | hg
      · exact moves.hasField (hasField_of_fieldNamed? hfind)
      · exact hothers g hg
    | none =>
      dsimp only
      rw [ends_bind, ends_report]
      have reported : Move env n w _ :=
        .index (.report (.skippedIndexField field.name index.name location) nofun nofun
          fun _ => shapes)
      refine (ih (reported.sound hs) hrest).imp ?_
      rintro others w' ⟨moves, hothers⟩
      exact ⟨.head reported moves, hothers⟩

theorem ends_copyIndex (hs : Sound w) {source : IndexId} {t : TableId}
    (hsource : source.val < w.index.indexes.size) (unfrozen : w.index.Unfrozen t)
    (hasNode : w.index.HasNode t) :
    Ends (copyIndex env source t) w Never fun _ w' => Moves env n w w' := by
  obtain ⟨index, hindex⟩ := Arena.exists_get? hsource
  obtain ⟨table, htable, hnode⟩ := hasNode
  obtain ⟨m, hm⟩ := Option.isSome_iff_exists.1 hnode
  unfold copyIndex
  rw [ends_bind, ends_indexAt hindex, ends_bind, ends_tableAt htable, hm]
  dsimp only
  rw [ends_bind]
  refine (ends_correspondingFields env n shapes hs (hs.coherent.indexes hindex)).imp ?_
  rintro fields w₁ ⟨moves₁, hfields⟩
  rw [ends_bind]
  refine (ends_appendIndex env n (by exact moves₁.unfrozen unfrozen) hfields shapes).imp ?_
  rintro _ w₂ ⟨moves₂, -⟩
  exact moves₁.trans moves₂

section Finish

variable {d : TableDefinition} (hs : Sound w) (deferred : Deferred w.index d)
  (unfrozen : w.index.Unfrozen d.table) (hasNode : w.index.HasNode d.table)
include hs deferred unfrozen hasNode

theorem ends_inheritIndexes :
    Ends (inheritIndexes env d) w Never fun _ w' => Moves env n w w' := by
  have unknown : ∀ {w' t} (name : String) (m : NodeId), Moves env n w w' →
      t.val < w.index.tables.size → Ends (do
        report (.unknownUseIndex name (← tableAt t).name (env.tree.location m))) w' Never
        fun _ w'' => Moves env n w w'' := by
    intro w' t name m moves ht
    obtain ⟨table, htable⟩ := Arena.exists_get? (moves.runs.extends.tables.lt_size ht)
    rw [ends_bind, ends_tableAt htable, ends_report]
    exact moves.tail (.index (.report _ nofun nofun nofun))
  have copy : ∀ {w' i}, Moves env n w w' → i.val < w'.index.indexes.size →
      Ends (copyIndex env i d.table) w' Never fun _ w'' => Moves env n w w'' := by
    intro w' i moves hi
    exact (ends_copyIndex env n shapes (moves.runs.sound hs) hi (moves.unfrozen unfrozen)
      (hasNode.extends moves.runs.extends)).imp fun _ w'' => moves.trans
  unfold inheritIndexes
  cases hlike : d.like with
  | some source =>
    have hsource := deferred.like source hlike
    obtain ⟨table, htable⟩ := Arena.exists_get? hsource
    dsimp only
    split
    · refine ends_forM (I := fun w' => Moves env n w w') ?_ .refl
      rintro ⟨name, m⟩ - w' moves
      rw [ends_bind, ends_theIndex]
      split
      · rename_i i hi
        exact copy moves ((moves.runs.sound hs).coherent.indexNamed?_lt hi)
      · exact unknown name m moves hsource
    · split
      · rw [ends_bind, ends_tableAt htable]
        refine ends_forM (I := fun w' => Moves env n w w') ?_ .refl
        intro i hi w' moves
        exact copy moves (moves.runs.extends.indexes.lt_size
          ((hs.coherent.tables htable).indexes i hi))
      · exact .refl
  | none =>
    refine ends_forM (I := fun w' => Moves env n w w') ?_ .refl
    rintro ⟨name, m⟩ - w' moves
    obtain ⟨table, htable, -⟩ := unfrozen
    exact unknown name m moves (Arena.lt_size_of_get? htable)

end Finish

theorem ends_resolveIndexField {d : TableDefinition} {p : PendingIndexField}
    (h : ∃ index, w.index.indexes.get? p.index = some index ∧ index.table = d.table)
    (unfrozen : w.index.Unfrozen d.table) :
    Ends (resolveIndexField env d.table p) w Never fun _ w' => Moves env n w w' := by
  obtain ⟨index, hindex, htable⟩ := h
  unfold resolveIndexField
  rw [ends_bind, ends_theIndex]
  split
  · rename_i found hfind
    rw [ends_updateTableIndex (Arena.lt_size_of_get? hindex)]
    exact .single (.index (.addIndexField hindex (htable ▸ unfrozen)
      (htable ▸ hasField_of_fieldNamed? hfind) shapes))
  · rw [ends_bind, ends_indexAt hindex, ends_report]
    exact .single (.index (.report _ nofun nofun fun _ => shapes))

/-- What a table definition has left for its end. -/
theorem ends_resolveIndexFields {d : TableDefinition} (deferred : Deferred w.index d)
    (unfrozen : w.index.Unfrozen d.table) :
    Ends (d.indexFields.forM (resolveIndexField env d.table)) w Never
      fun _ w' => Moves env n w w' := by
  refine ends_forM (I := fun w' => Moves env n w w') ?_ .refl
  intro p hp w' moves
  have later := (deferred.extends moves.runs.extends).indexFields p hp
  exact (ends_resolveIndexField env n shapes later (moves.unfrozen unfrozen)).imp fun _ _ =>
    moves.trans

/-- The table is frozen when its definition ends. -/
theorem ends_finishTable (hs : Sound w) {d : TableDefinition} (h : w.tableDefinition = some d) :
    Ends (finishTable env d) { w with tableDefinition := none } Never fun _ w' =>
      Runs env n w w' ∧ w'.frame = { w.frame with table := none } := by
  have hs₀ := hs.closeTable
  have hasNode := (hs.openBuffer h).2
  have opened : { w with tableDefinition := some d } = w := by rw [← h]
  unfold finishTable
  rw [ends_bind]
  refine (ends_inheritIndexes env n shapes hs₀ (hs.deferred d h) (hs.unfrozen d h) hasNode).imp ?_
  intro _ w₁ moves₁
  have ext₁ := moves₁.runs.extends
  rw [ends_bind]
  refine (ends_resolveIndexFields env n shapes ((hs.deferred d h).extends ext₁)
    (moves₁.unfrozen (hs.unfrozen d h))).imp fun _ w₂ moves₂ => ?_
  have moves : Moves env n { w with tableDefinition := none } w₂ := moves₁.trans moves₂
  have frame := moves.frame
  have closed : w₂.tableDefinition = none := by
    simpa [Walk.frame] using congrArg Frame.table frame
  obtain ⟨table, htable, -⟩ := hasNode.extends moves.runs.extends
  rw [ends_updateTable (Arena.lt_size_of_get? htable)]
  have runs : Runs env n w { w₂ with tableDefinition := some d } := by
    have lifted := (moves.withTable rfl d).runs
    rwa [opened] at lifted
  have finished : Turn { w₂ with tableDefinition := some d }
      { w₂ with index := w₂.index.frozen d.table, tableDefinition := none } := .finishTable rfl
  rw [← closed] at finished
  exact ⟨runs.tail (.inr finished), frame⟩

end Shapes

end AblResolve.Walk
