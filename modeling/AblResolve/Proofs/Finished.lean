import AblResolve.Proofs.TableOwnership
/-!
What is finished. Clauses give types to variables and fields while their definitions are open, and
tables take fields and indexes until they are frozen. After that nothing changes them any more,
whatever else the walk goes on to do.
-/
namespace AblResolve

/-- The type that clauses have given to a variable. -/
def Symbol.ownType (s : Symbol) : Option ValueType := s.asVariable?.map (·.type)

theorem Symbol.Revision.ownType {s s' : Symbol} (h : s.Revision s') : s'.ownType = s.ownType := by
  cases h <;> simp_all [Symbol.ownType, Symbol.asVariable?]

namespace UnitIndex

variable {x y z : UnitIndex} {opened : List SymbolId} {typing tabling : Prop}
  {current : Option TableId}

/-- What is finished about the tables of `x` is the same in `y`: the fields that belong to tables,
and tables that are frozen, with their indexes. -/
structure KeepsTables (x y : UnitIndex) : Prop where
  fields : ∀ f v, x.fields.get? f = some v → v.table.isSome → y.fields.get? f = some v
  tables : ∀ t v, x.tables.get? t = some v → v.frozen = true → y.tables.get? t = some v
  indexes : ∀ i v table, x.indexes.get? i = some v → x.tables.get? v.table = some table →
    table.frozen = true → y.indexes.get? i = some v

namespace KeepsTables

theorem refl (x : UnitIndex) : x.KeepsTables x :=
  ⟨fun _ _ h _ => h, fun _ _ h _ => h, fun _ _ _ h _ _ => h⟩

theorem trans (h : x.KeepsTables y) (k : y.KeepsTables z) : x.KeepsTables z where
  fields f v hv owned := k.fields f v (h.fields f v hv owned) owned
  tables t v hv frozen := k.tables t v (h.tables t v hv frozen) frozen
  indexes i v table hv found frozen :=
    k.indexes i v table (h.indexes i v table hv found frozen) (h.tables _ table found frozen) frozen

end KeepsTables

/-- What is finished in `x` is the same in `y`: tables, and the types of variables whose definitions
are not among `opened`. Findings are only added. -/
structure KeepsFinished (opened : List SymbolId) (x y : UnitIndex) : Prop
    extends KeepsTables x y where
  types : ∀ i s, x.symbols.get? i = some s →
    ∃ s', y.symbols.get? i = some s' ∧ (i ∉ opened → s'.ownType = s.ownType)
  unresolved : x.unresolved <+: y.unresolved
  diagnostics : x.diagnostics.all <+: y.diagnostics.all

/-- Symbols may change as long as variables keep their types. -/
theorem ownType_of_keeps {p : SymbolId → Prop} (h : x.symbols.Keeps Symbol.ownType y.symbols) :
    ∀ i s, x.symbols.get? i = some s →
      ∃ s', y.symbols.get? i = some s' ∧ (p i → s'.ownType = s.ownType) := by
  intro i s hs
  obtain ⟨s', hs', same⟩ := h i s hs
  exact ⟨s', hs', fun _ => same⟩

namespace KeepsFinished

theorem refl (opened : List SymbolId) (x : UnitIndex) : x.KeepsFinished opened x :=
  ⟨.refl x, fun _ s h => ⟨s, h, fun _ => rfl⟩, List.prefix_rfl, List.prefix_rfl⟩

/-- One goes on; what is opened on the way is new. -/
theorem trans {later : List SymbolId} (h : x.KeepsFinished opened y) (k : y.KeepsFinished later z)
    (new : ∀ s ∈ later, s ∈ opened ∨ x.symbols.size ≤ s.val) : x.KeepsFinished opened z where
  types i s hs := by
    obtain ⟨s', hs', same⟩ := h.types i s hs
    obtain ⟨s'', hs'', same'⟩ := k.types i s' hs'
    refine ⟨s'', hs'', fun closed => (same' fun hi => ?_).trans (same closed)⟩
    rcases new i hi with old | hge
    · exact closed old
    · exact Nat.not_lt.2 hge (Arena.lt_size_of_get? hs)
  toKeepsTables := h.toKeepsTables.trans k.toKeepsTables
  unresolved := h.unresolved.trans k.unresolved
  diagnostics := h.diagnostics.trans k.diagnostics

end KeepsFinished

/-! ### Changes -/

theorem Unfrozen.get?_update {t : TableId} (unfrozen : x.Unfrozen t) (g : Table → Table)
    {s : TableId} {v : Table} (hv : x.tables.get? s = some v) (frozen : v.frozen = true) :
    (x.tables.update t g).get? s = some v := by
  obtain ⟨table, found, takes⟩ := unfrozen
  rw [Arena.get?_update]
  split
  · rename_i hts
    subst hts
    rw [hv] at found
    cases found
    rw [frozen] at takes
    cases takes
  · exact hv

theorem Refers.keepsFinished (h : x.Refers y) : x.KeepsFinished opened y := by
  refine ⟨⟨fun f v hv _ => h.fields ▸ hv, fun t v hv _ => h.tables ▸ hv,
    fun i v _ hv _ _ => h.indexes ▸ hv⟩, ownType_of_keeps fun i s hs => ?_,
    h.unresolved, h.diagnostics⟩
  obtain ⟨s', hs', same⟩ := h.symbol hs
  exact ⟨s', hs', (congrArg Symbol.ownType same :)⟩

/-- The symbol through which a buffer reaches a field has no type of its own. -/
theorem keeps_ownType_reached {buffer : SymbolId} {owner : Symbol} {b : TableBuffer}
    (found : x.symbols.get? buffer = some owner) (kind : owner.kind = .tableBuffer b) (f : FieldId)
    (name : String) :
    x.symbols.Keeps Symbol.ownType (x.reached buffer owner b f name).symbols := by
  refine (Arena.keeps_push _ _ _).trans (Arena.keeps_update fun v hv => ?_)
  rw [Arena.get?_push_of_get? found] at hv
  cases hv
  simp [Symbol.ownType, Symbol.asVariable?, kind]

/-- A variable keeps its type unless its definition is open and types are given. -/
theorem Change.types (c : x.Change opened typing tabling y) : ∀ i s, x.symbols.get? i = some s →
    ∃ s', y.symbols.get? i = some s' ∧ (i ∉ opened ∨ ¬ typing → s'.ownType = s.ownType) := by
  cases c with
  | create | createDefault | openRoutine => exact ownType_of_keeps (Arena.keeps_push _ _ _)
  | reach found kind => exact ownType_of_keeps (keeps_ownType_reached found kind _ _)
  | attach => exact ownType_of_keeps (Arena.keeps_update fun _ _ => rfl)
  | revise found revision =>
    refine ownType_of_keeps (Arena.keeps_update fun v hv => ?_)
    rw [found] at hv
    cases hv
    exact revision.ownType
  | typeVariable isOpen found kind type allowed =>
    intro i s hs
    rw [Arena.get?_update]
    split
    · rename_i hi
      subst hi
      exact ⟨_, by rw [hs]; rfl, fun h => h.elim (absurd isOpen) (absurd allowed)⟩
    · exact ⟨s, hs, fun _ => rfl⟩
  | _ => exact ownType_of_keeps (.refl _ _)

/-- A field that belongs to a table is not being defined. -/
theorem TablesOk.ne_of_pending (ok : x.TablesOk opened current) {i : SymbolId} (isOpen : i ∈ opened)
    {b : FieldBuffer} (reaches : x.asFieldBuffer? i = some b) {f : FieldId} {v : Field}
    (hv : x.fields.get? f = some v) (owned : v.table.isSome) : b.field ≠ f := by
  rintro rfl
  have pending : b.field ∈ x.pendingFields opened :=
    List.mem_filterMap.2 ⟨i, isOpen, by simp [reaches]⟩
  obtain ⟨v', hv', none⟩ := (ok.unowned _).1 pending
  rw [hv] at hv'
  cases hv'
  rw [none] at owned
  cases owned

theorem Change.keepsFinished (ok : x.TablesOk opened current)
    (c : x.Change opened typing tabling y) : x.KeepsFinished opened y := by
  have types : ∀ i s, x.symbols.get? i = some s →
      ∃ s', y.symbols.get? i = some s' ∧ (i ∉ opened → s'.ownType = s.ownType) :=
    fun i s hs => (c.types i s hs).imp fun _ h => ⟨h.1, fun closed => h.2 (.inl closed)⟩
  have same := KeepsFinished.refl opened x
  cases c with
  | report d => exact { same with diagnostics := List.prefix_append _ _ }
  | load e =>
    exact { same with
      fields := fun f v hv _ => by
        rw [loadTable, Arena.get?_pushAll_of_lt (Arena.lt_size_of_get? hv), hv]
      tables := fun t v hv _ => Arena.get?_push_of_get? hv
      indexes := fun i v _ hv _ _ => by
        rw [loadTable, Arena.get?_pushAll_of_lt (Arena.lt_size_of_get? hv), hv] }
  | typeField isOpen found =>
    refine { same with fields := fun f v hv owned => ?_ }
    rw [Arena.get?_update, if_neg (ok.ne_of_pending isOpen found hv owned)]
    exact hv
  | copyFields unfrozen =>
    exact { same with
      fields := fun f v hv _ => by
        rw [withFields, Arena.get?_pushAll_of_lt (Arena.lt_size_of_get? hv), hv]
      tables := fun t v hv frozen => unfrozen.get?_update _ hv frozen }
  | createIndex unfrozen =>
    exact { same with
      tables := fun t v hv frozen => unfrozen.get?_update _ hv frozen
      indexes := fun i v _ hv _ _ => Arena.get?_push_of_get? hv }
  | addIndexField found unfrozen =>
    refine { same with indexes := fun i v table hv htable frozen => ?_ }
    rw [Arena.get?_update, if_neg, hv]
    rintro rfl
    rw [hv] at found
    cases found
    obtain ⟨_, htable', takes⟩ := unfrozen
    rw [htable] at htable'
    cases htable'
    rw [frozen] at takes
    cases takes
  | _ => exact { same with types }

end UnitIndex

namespace Walk

open UnitIndex

variable {v w w' : Walk}

theorem Turn.keepsFinished (turn : Turn w w') (ok : w.TablesOk) :
    w.index.KeepsFinished w.openDefinitions w'.index := by
  have same := KeepsFinished.refl w.openDefinitions w.index
  cases turn with
  | reframe | endDefinition => exact same
  | define => exact { same with types := ownType_of_keeps (Arena.keeps_push _ _ _) }
  | beginTable =>
    exact { same with
      types := ownType_of_keeps (Arena.keeps_push _ _ _)
      tables := fun t v hv _ => Arena.get?_push_of_get? hv }
  | finishTable =>
    refine { same with tables := fun t v hv frozen => ?_ }
    rw [UnitIndex.frozen, Arena.get?_update, hv]
    split
    · rw [Option.map_some, ← frozen]
    · rfl
  | beginField name found kind =>
    exact { same with
      types := ownType_of_keeps (keeps_ownType_reached found kind w.index.fields.next name)
      fields := fun f v hv _ => Arena.get?_push_of_get? hv }
  | joinField opened reaches unfrozen =>
    refine { same with
      fields := fun f v hv owned => ?_
      tables := fun t v hv frozen => unfrozen.get?_update _ hv frozen }
    rw [joined, withFields, Arena.get?_update,
      if_neg (ok.ne_of_pending (opened ▸ List.mem_cons_self) reaches hv owned)]
    exact hv

/-- In every stride, what is finished stays as it is. -/
theorem Stride.keepsFinished (stride : Stride w w') (ok : w.TablesOk) :
    w.index.KeepsFinished w.openDefinitions w'.index := by
  cases stride with
  | change change => exact change.keepsFinished ok
  | turn turn => exact turn.keepsFinished ok
  | refer refers => exact refers.keepsFinished

/-- What is finished about tables stays, however far a walk goes. -/
theorem Strides.keepsTables (strides : Strides v w) (hs : Sound v) (ok : v.TablesOk) :
    v.index.KeepsTables w.index := by
  obtain ⟨-, -, kept⟩ := strides.keep hs (P := fun w => w.TablesOk ∧ v.index.KeepsTables w.index)
    (fun u u' hs _ stride ⟨ok, kept⟩ =>
      ⟨stride.tables hs ok, kept.trans (stride.keepsFinished ok).toKeepsTables⟩)
    ⟨ok, .refl _⟩
  exact kept

/-- What is opened is new. -/
theorem Stride.opened (stride : Stride w w') : ∀ s ∈ w'.openDefinitions,
    s ∈ w.openDefinitions ∨ w.index.symbols.size ≤ s.val := by
  intro s hs
  have kept : w'.frame = w.frame → s ∈ w.openDefinitions := by
    intro frame
    have definitions : w'.openDefinitions = w.openDefinitions := congrArg Frame.definitions frame
    exact definitions ▸ hs
  have begun : s ∈ w.index.symbols.next :: w.openDefinitions →
      s ∈ w.openDefinitions ∨ w.index.symbols.size ≤ s.val := by
    intro hs
    rcases List.mem_cons.1 hs with rfl | hs
    · exact .inr (Nat.le_refl _)
    · exact .inl hs
  cases stride with
  | change _ frame | refer _ frame => exact .inl (kept frame)
  | turn turn =>
    cases turn with
    | reframe | finishTable => exact .inl hs
    | define | beginTable | beginField => exact begun hs
    | endDefinition opened | joinField opened =>
      exact .inl (opened ▸ List.mem_cons_of_mem _ hs)

/-- What is opened on the way is new. -/
theorem Strides.opened (strides : Strides v w) : ∀ s ∈ w.openDefinitions,
    s ∈ v.openDefinitions ∨ v.index.symbols.size ≤ s.val := by
  induction strides with
  | refl => exact fun _ => .inl
  | tail before step ih =>
    intro s hs
    rcases step.1.opened s hs with old | new
    · exact ih s old
    · have grown : v.index.symbols.Keeps Symbol.fixed _ := (Strides.extends before).symbols
      exact .inr (Nat.le_trans grown.size_le new)

/-- A walk leaves everything that is finished as it is. -/
theorem Strides.keepsFinished (strides : Strides v w) (hs : Sound v) (ok : v.TablesOk) :
    v.index.KeepsFinished v.openDefinitions w.index := by
  induction strides with
  | refl => exact .refl _ _
  | tail before step ih =>
    have ok' := Strides.tables before hs ok
    exact ih.trans (step.1.keepsFinished ok') (Strides.opened before)

end Walk

/-! ### What lasts -/

namespace UnitIndex

variable {x y : UnitIndex}

/-- All that `x` has lasts in `y`: everything in it keeps its number and its fixed part, symbols
keep their types, tables and fields do not change at all, and nothing that was noted is lost. -/
structure Lasts (x y : UnitIndex) : Prop where
  ext : x.Extends y
  types : ∀ i s, x.symbols.get? i = some s →
    ∃ s', y.symbols.get? i = some s' ∧ y.typeOf s' = x.typeOf s
  tables : x.tables.Keeps id y.tables
  fields : x.fields.Keeps id y.fields
  unresolved : x.unresolved <+: y.unresolved
  diagnostics : x.diagnostics.all <+: y.diagnostics.all

/-- A symbol keeps its type if it does so as a variable and if its field does. -/
theorem valueType_congr (ext : x.Extends y) (coherent : x.Coherent) {i : SymbolId} {s : Symbol}
    (hs : x.symbols.get? i = some s)
    (own : s.asVariable?.isSome → ∀ s', y.symbols.get? i = some s' → s'.ownType = s.ownType)
    (field : ∀ f v, s.kind = .fieldBuffer f → x.fields.get? f.field = some v →
      ∃ v', y.fields.get? f.field = some v' ∧ v'.type = v.type) :
    y.valueType i = x.valueType i := by
  obtain ⟨s', hs', fixed⟩ := ext.kind_fixed hs
  have ok := (coherent.symbols hs).kind
  unfold valueType
  rw [hs, hs']
  dsimp only [typeOf]
  cases hk : s.kind <;> cases hk' : s'.kind <;> simp only [hk, hk', SymbolKind.fixed, reduceCtorEq,
    SymbolKind.fieldBuffer.injEq] at fixed ⊢
  case variable.variable v v' =>
    have same := own (by simp [Symbol.asVariable?, hk]) s' hs'
    simpa [Symbol.ownType, Symbol.asVariable?, hk, hk'] using same
  case fieldBuffer.fieldBuffer b b' =>
    subst fixed
    rw [hk] at ok
    obtain ⟨v, hv⟩ := Arena.exists_get? ok.2.2
    obtain ⟨v', hv', same⟩ := field _ v hk hv
    rw [hv, hv']
    exact same

/-- No clause gives a type to the symbol any more: a variable is not being defined, and a field has
joined its table. -/
structure Closed (x : UnitIndex) (opened : List SymbolId) (i : SymbolId) : Prop where
  notOpen : ∀ s, x.symbols.get? i = some s → s.asVariable?.isSome → i ∉ opened
  owned : ∀ f, x.asFieldBuffer? i = some f → (x.fieldOwner f.field).isSome

/-- What is closed keeps its type. -/
theorem KeepsFinished.valueType {opened : List SymbolId} (kept : x.KeepsFinished opened y)
    (ext : x.Extends y) (coherent : x.Coherent) {i : SymbolId} (closed : x.Closed opened i)
    (lt : i.val < x.symbols.size) : y.valueType i = x.valueType i := by
  obtain ⟨s, hs⟩ := Arena.exists_get? lt
  refine valueType_congr ext coherent hs (fun isVariable s' hs' => ?_) fun f v hk hv => ?_
  · obtain ⟨s'', hs'', same⟩ := kept.types i s hs
    rw [hs'] at hs''
    cases hs''
    exact same (closed.notOpen s hs isVariable)
  · have owned := closed.owned f (asFieldBuffer?_eq_some.2 ⟨s, hs, hk⟩)
    rw [fieldOwner, hv] at owned
    exact ⟨v, kept.fields _ v hv owned, rfl⟩

/-- When nothing is open any more, everything is finished. -/
theorem KeepsFinished.lasts (kept : x.KeepsFinished [] y) (ext : x.Extends y)
    (coherent : x.Coherent) (ok : x.TablesOk [] none) : x.Lasts y := by
  have frozen : ∀ t v, x.tables.get? t = some v → v.frozen = true := by
    intro t v hv
    by_contra hne
    cases ok.unfrozen t ⟨v, hv, Bool.eq_false_iff.2 hne⟩
  have owned : ∀ f v, x.fields.get? f = some v → v.table.isSome := by
    intro f v hv
    cases hnone : v.table with
    | some t => rfl
    | none => cases (ok.unowned f).2 ⟨v, hv, hnone⟩
  refine ⟨ext, fun i s hs => ?_, fun t v hv => ⟨v, kept.tables t v hv (frozen t v hv), rfl⟩,
    fun f v hv => ⟨v, kept.fields f v hv (owned f v hv), rfl⟩, kept.unresolved, kept.diagnostics⟩
  obtain ⟨s', hs', -⟩ := kept.types i s hs
  have closed : x.Closed [] i := by
    refine ⟨fun _ _ _ => List.not_mem_nil, fun f hf => ?_⟩
    obtain ⟨symbol, hsymbol, hkind⟩ := asFieldBuffer?_eq_some.1 hf
    have found := (coherent.symbols hsymbol).kind
    rw [hkind] at found
    obtain ⟨v, hv⟩ := Arena.exists_get? found.2.2
    rw [fieldOwner, hv]
    exact owned _ v hv
  have same := kept.valueType ext coherent closed (Arena.lt_size_of_get? hs)
  rw [UnitIndex.valueType, hs', UnitIndex.valueType, hs] at same
  exact ⟨s', hs', same⟩

end UnitIndex

end AblResolve
