import AblResolve.Proofs.Handles
/-!
How symbols come by their types. Only the clauses AS, LIKE and EXTENT give types, and only to the
innermost open definition; whatever else a walk does leaves the types of all symbols as they are.
What is being defined is out of the reach of names, and nothing else shares its field.
-/
namespace AblResolve

/-- Variables and fields have types. -/
def SymbolKind.isTyped : SymbolKind → Bool
  | .variable _ | .fieldBuffer _ => true
  | _ => false

theorem SymbolKind.isTyped_fixed (k : SymbolKind) : k.fixed.isTyped = k.isTyped := by
  cases k <;> rfl

/-- The type of what is defined LIKE something that has type `source`. A source without a data type
gives its dimension alone. -/
def ValueType.like (old source : ValueType) : ValueType :=
  match source.dataType with
  | some _ => source
  | none => { old with extent := source.extent }

theorem ValueType.Proper.like {source : ValueType} (h : source.Proper) :
    ValueType.like {} source = source := by
  obtain ⟨dataType, className, extent⟩ := source
  cases dataType with
  | some type => rfl
  | none => rw [show className = none from h rfl, ValueType.like]

theorem Symbol.isSome_asVariable? (s : Symbol) : s.asVariable?.isSome = s.ownType.isSome := by
  simp [Symbol.ownType]

namespace UnitIndex

variable {x y z : UnitIndex} {opened : List SymbolId} {typing tabling : Prop} {s : SymbolId}
  {t t' : ValueType}

/-! ### Types that stay -/

/-- The findings about clauses LIKE something that is not there. -/
def likeFindings (x : UnitIndex) : List Diagnostic := x.diagnostics.withCode .unresolvedLikeSource

/-- Nothing is given another type, and there is no finding about a LIKE clause. -/
structure KeepsTypes (x y : UnitIndex) : Prop where
  symbols : x.symbols.Keeps Symbol.ownType y.symbols
  fields : x.fields.Keeps Field.type y.fields
  findings : y.likeFindings = x.likeFindings

theorem KeepsTypes.refl (x : UnitIndex) : x.KeepsTypes x := ⟨.refl _ _, .refl _ _, rfl⟩

theorem KeepsTypes.trans (h : x.KeepsTypes y) (k : y.KeepsTypes z) : x.KeepsTypes z :=
  ⟨h.symbols.trans k.symbols, h.fields.trans k.fields, k.findings.trans h.findings⟩

theorem KeepsTypes.valueType (kept : x.KeepsTypes y) (ext : x.Extends y) (coherent : x.Coherent)
    (lt : s.val < x.symbols.size) : y.valueType s = x.valueType s := by
  obtain ⟨symbol, hs⟩ := Arena.exists_get? lt
  refine valueType_congr ext coherent hs (fun _ s' hs' => ?_) fun f v _ hv =>
    kept.fields f.field v hv
  obtain ⟨s'', hs'', same⟩ := kept.symbols s symbol hs
  rw [hs'] at hs''
  cases hs''
  exact same

theorem Change.keepsTypes (c : x.Change opened False tabling y) : x.KeepsTypes y where
  symbols i s hs := (c.types i s hs).imp fun _ h => ⟨h.1, h.2 (.inr id)⟩
  fields := by
    cases c with
    | load | copyFields => exact Arena.keeps_pushAll _ _ _
    | typeField _ _ _ allowed => exact allowed.elim
    | _ => exact .refl _ _
  findings := by
    cases c with
    | report d other like skip =>
      have unlike : ¬ d.code = .unresolvedLikeSource := like
      simp [likeFindings, Diagnostics.withCode, Diagnostics.add, unlike]
    | _ => rfl

theorem Refers.keepsTypes (h : x.Refers y) (same : y.diagnostics = x.diagnostics) :
    x.KeepsTypes y where
  symbols i s hs := by
    obtain ⟨s', hs', same⟩ := h.symbol hs
    exact ⟨s', hs', (congrArg Symbol.ownType same :)⟩
  fields := by
    rw [h.fields]
    exact .refl _ _
  findings := congrArg (Diagnostics.withCode · _) same

/-! ### Types are proper -/

/-- Only what has a data type has a class. -/
structure ProperTypes (x : UnitIndex) : Prop where
  symbols : ∀ i s v, x.symbols.get? i = some s → s.kind = .variable v → v.type.Proper
  fields : ∀ f v, x.fields.get? f = some v → v.type.Proper

theorem ProperTypes.valueType (h : x.ProperTypes) (s : SymbolId) : (x.valueType s).Proper := by
  have nothing : ValueType.Proper {} := fun _ => rfl
  unfold UnitIndex.valueType
  cases hs : x.symbols.get? s with
  | none => exact nothing
  | some symbol =>
    dsimp only [typeOf]
    cases hk : symbol.kind with
    | «variable» v => exact h.symbols s symbol v hs hk
    | fieldBuffer f =>
      dsimp only
      cases hf : x.fields.get? f.field with
      | none => exact nothing
      | some v => exact h.fields _ v hf
    | _ => exact nothing

/-- New symbols are proper, and those that are there are as before. -/
theorem ProperTypes.grow (h : x.ProperTypes)
    (symbols : x.symbols.Renews (fun _ s => ∀ v, s.kind = .variable v → v.type.Proper) y.symbols)
    (fields : x.fields.Renews (fun _ v => v.type.Proper) y.fields) : y.ProperTypes where
  symbols i s v hs hk := (symbols i s hs).elim (fun old => h.symbols i s v old hk) (· v hk)
  fields f v hv := (fields f v hv).elim (h.fields f v) id

theorem ProperTypes.reached (h : x.ProperTypes) (buffer : SymbolId) (owner : Symbol)
    (b : TableBuffer) (f : FieldId) (name : String) :
    (x.reached buffer owner b f name).ProperTypes :=
  h.grow ((Arena.renews_push nofun).trans (Arena.renews_update fun _ _ => nofun)) (.same _ _)

theorem ProperTypes.change (h : x.ProperTypes) (c : x.Change opened typing tabling y) :
    y.ProperTypes := by
  cases c with
  | load e =>
    refine h.grow (.same _ _) (Arena.renews_pushAll fun v hv _ => ?_)
    obtain ⟨f, -, rfl⟩ := List.mem_map.1 hv
    exact nofun
  | create scope new kind =>
    refine h.grow (Arena.renews_push fun v hv => ?_) (.same _ _)
    rw [hv] at kind
    exact kind
  | createDefault => exact h.grow (Arena.renews_push nofun) (.same _ _)
  | reach => exact h.reached ..
  | attach =>
    refine h.grow (Arena.renews_update fun s hs v hv => ?_) (.same _ _)
    exact h.symbols _ s v hs hv
  | @revise i s f found revision =>
    refine h.grow (Arena.renews_update fun s' hs' v hv => ?_) (.same _ _)
    rw [found] at hs'
    cases hs'
    have own : s.ownType = some v.type := by
      rw [← revision.ownType, Symbol.ownType, Symbol.asVariable?, hv]
      rfl
    cases hk : s.kind with
    | «variable» u =>
      rw [Symbol.ownType, Symbol.asVariable?, hk] at own
      exact Option.some.inj own ▸ h.symbols i s u found hk
    | _ => simp [Symbol.ownType, Symbol.asVariable?, hk] at own
  | typeVariable isOpen found kind type allowed proper =>
    refine h.grow (Arena.renews_update fun s hs v hv => ?_) (.same _ _)
    cases hv
    exact proper (h.symbols _ _ _ found kind)
  | typeField isOpen found type allowed proper =>
    exact h.grow (.same _ _) (Arena.renews_update fun v hv => proper v (h.fields _ v hv))
  | openRoutine => exact h.grow (Arena.renews_push fun v hv => by cases hv) (.same _ _)
  | copyFields unfrozen owned copied =>
    refine h.grow (.same _ _) (Arena.renews_pushAll fun v hv _ => ?_)
    obtain ⟨i, u, hu, same⟩ := copied v hv
    exact same ▸ h.fields i u hu
  | _ => exact h.grow (.same _ _) (.same _ _)

/-! ### Out of reach -/

/-- Names do not lead to variables that are being defined. -/
def OutOfReach (x : UnitIndex) (opened : List SymbolId) : Prop :=
  ∀ i ∈ opened, ∀ s, x.symbols.get? i = some s → s.asVariable?.isSome → s.attached = false

theorem OutOfReach.keep (h : x.OutOfReach opened)
    (old : ∀ i ∈ opened, ∀ s, y.symbols.get? i = some s → s.asVariable?.isSome →
      ∃ u, x.symbols.get? i = some u ∧ u.asVariable?.isSome ∧ s.attached = u.attached) :
    y.OutOfReach opened := by
  intro i hi s hs isVariable
  obtain ⟨u, hu, isVariable', same⟩ := old i hi s hs isVariable
  exact same.trans (h i hi u hu isVariable')

section Reach

variable (h : x.OutOfReach opened) (lt : ∀ d ∈ opened, d.val < x.symbols.size)
include h lt

theorem OutOfReach.push (symbol : Symbol) (hy : y.symbols = x.symbols.push symbol) :
    y.OutOfReach opened := by
  refine h.keep fun i hi s hs isVariable => ?_
  rw [hy] at hs
  rcases Arena.get?_push_cases hs with ⟨rfl, -⟩ | hold
  · exact absurd (lt _ hi) (Nat.lt_irrefl _)
  · exact ⟨s, hold, isVariable, rfl⟩

omit lt in
theorem OutOfReach.reached {buffer : SymbolId} {owner : Symbol} {b : TableBuffer} {f : FieldId}
    {name : String} : (x.reached buffer owner b f name).OutOfReach opened := by
  intro i hi s hs isVariable
  rcases Arena.get?_update_cases hs with ⟨-, u, -, rfl⟩ | ⟨-, hold⟩
  · cases isVariable
  · rcases Arena.get?_push_cases hold with ⟨-, rfl⟩ | hold
    · cases isVariable
    · exact h i hi s hold isVariable

theorem OutOfReach.change (c : x.Change opened typing tabling y) : y.OutOfReach opened := by
  cases c with
  | create | createDefault | openRoutine => exact h.push lt _ rfl
  | reach => exact h.reached
  | @attach j u space found leads closed =>
    intro i hi s hs isVariable
    rcases Arena.get?_update_cases hs with ⟨rfl, u', hu, rfl⟩ | ⟨-, hold⟩
    · rw [found] at hu
      cases hu
      have notBuffer : u.asTableBuffer? = none := by
        cases hk : u.kind <;> simp_all [Symbol.asVariable?, Symbol.asTableBuffer?]
      exact absurd hi (closed notBuffer)
    · exact h i hi s hold isVariable
  | revise found revision =>
    refine h.keep fun i hi s hs isVariable => ?_
    rcases Arena.get?_update_cases hs with ⟨rfl, u, hu, rfl⟩ | ⟨-, hold⟩
    · rw [found] at hu
      cases hu
      rw [Symbol.isSome_asVariable?, revision.ownType, ← Symbol.isSome_asVariable?] at isVariable
      exact ⟨_, found, isVariable, revision.attached⟩
    · exact ⟨s, hold, isVariable, rfl⟩
  | typeVariable isOpen found kind =>
    refine h.keep fun i hi s hs isVariable => ?_
    rcases Arena.get?_update_cases hs with ⟨rfl, u, hu, rfl⟩ | ⟨-, hold⟩
    · rw [found] at hu
      cases hu
      exact ⟨_, found, by simp [Symbol.asVariable?, kind], rfl⟩
    · exact ⟨s, hold, isVariable, rfl⟩
  | _ => exact h

end Reach

/-! ### Giving a type -/

/-- The symbol is a variable or a field. -/
def HasType (x : UnitIndex) (s : SymbolId) : Prop :=
  ∃ symbol, x.symbols.get? s = some symbol ∧ symbol.kind.isTyped

theorem HasType.extends (ext : x.Extends y) (h : x.HasType s) : y.HasType s := by
  obtain ⟨symbol, hs, typed⟩ := h
  obtain ⟨symbol', hs', fixed⟩ := ext.kind_fixed hs
  refine ⟨symbol', hs', ?_⟩
  rwa [← SymbolKind.isTyped_fixed, fixed, SymbolKind.isTyped_fixed]

/-- In `y`, symbol `s` has been given type `t`, if it takes one; all others have the types that they
had in `x`. -/
structure Retypes (x : UnitIndex) (s : SymbolId) (t : ValueType) (y : UnitIndex) : Prop where
  type : x.HasType s → y.valueType s = t
  others : ∀ i, i.val < x.symbols.size → i ≠ s → y.valueType i = x.valueType i
  diagnostics : y.diagnostics = x.diagnostics

theorem Retypes.trans (h : x.Retypes s t y) (ext : x.Extends y) (k : y.Retypes s t' z) :
    x.Retypes s t' z where
  type typed := k.type (typed.extends ext)
  others i lt hne := (k.others i (ext.lt_symbols lt) hne).trans (h.others i lt hne)
  diagnostics := k.diagnostics.trans h.diagnostics

end UnitIndex

namespace Walk

open UnitIndex

variable {env : Env} {n : NodeId} {v w w' : Walk} {s : SymbolId}

/-! ### Steps of a walk -/

theorem Turn.keepsTypes (turn : Turn w w') : w.index.KeepsTypes w'.index := by
  cases turn with
  | define | beginTable => exact ⟨Arena.keeps_push _ _ _, .refl _ _, rfl⟩
  | beginField name found kind =>
    exact ⟨keeps_ownType_reached found kind w.index.fields.next name, Arena.keeps_push _ _ _, rfl⟩
  | joinField => exact ⟨.refl _ _, Arena.keeps_update fun _ _ => rfl, rfl⟩
  | reframe | endDefinition | finishTable => exact ⟨.refl _ _, .refl _ _, rfl⟩

theorem Turn.properTypes (turn : Turn w w') (h : w.index.ProperTypes) : w'.index.ProperTypes := by
  cases turn with
  | define scope new kind =>
    refine h.grow (Arena.renews_push fun v hv => ?_) (.same _ _)
    rw [hv] at kind
    exact kind
  | beginTable => exact h.grow (Arena.renews_push nofun) (.same _ _)
  | beginField =>
    have field : ValueType.Proper {} := fun _ => rfl
    exact (h.grow (y := { w.index with fields := w.index.fields.push _ }) (.same _ _)
      (Arena.renews_push field)).reached ..
  | joinField => exact h.grow (.same _ _) (Arena.renews_update fun v hv => h.fields _ v hv)
  | reframe | endDefinition | finishTable => exact h.grow (.same _ _) (.same _ _)

theorem Turn.outOfReach (turn : Turn w w') (hs : Sound w)
    (h : w.index.OutOfReach w.openDefinitions) : w'.index.OutOfReach w'.openDefinitions := by
  have lt := hs.standing.definitions
  -- what is opened is the next symbol, and it is not a variable that has been attached
  have opens : ∀ {y : UnitIndex}, y.OutOfReach w.openDefinitions →
      (∀ s, y.symbols.get? w.index.symbols.next = some s → s.asVariable?.isSome →
        s.attached = false) →
      y.OutOfReach (w.index.symbols.next :: w.openDefinitions) := by
    intro y old new i hi s hs isVariable
    rcases List.mem_cons.1 hi with rfl | hi
    · exact new s hs isVariable
    · exact old i hi s hs isVariable
  cases turn with
  | reframe | finishTable => exact h
  | define scope new kind pending =>
    refine opens (h.push lt _ rfl) fun s hs _ => ?_
    rw [withSymbol, Arena.get?_push_next] at hs
    cases hs
    exact pending
  | endDefinition opened | joinField opened =>
    exact fun i hi => h i (opened ▸ List.mem_cons_of_mem _ hi)
  | beginTable =>
    refine opens (h.push lt _ rfl) fun s hs isVariable => ?_
    rw [withTable, withSymbol, Arena.get?_push_next] at hs
    cases hs
    cases isVariable
  | @beginField buffer owner b name found kind =>
    refine opens h.reached fun s hs isVariable => ?_
    rcases Arena.get?_update_cases hs with ⟨-, u, -, rfl⟩ | ⟨-, hold⟩
    · cases isVariable
    · rw [Arena.get?_push_next] at hold
      cases hold
      cases isVariable

/-- What holds at every moment of a walk. -/
structure Regular (w : Walk) : Prop where
  sound : Sound w
  tables : w.TablesOk
  buffers : BuffersOk w.index
  outOfReach : w.index.OutOfReach w.openDefinitions
  proper : w.index.ProperTypes

theorem Stride.regular (stride : Stride w w') (hs' : Sound w') (h : Regular w) : Regular w' := by
  obtain ⟨tables, buffers⟩ :=
    Strides.buffers (.single ⟨stride, hs'⟩) h.sound h.tables h.buffers
  refine ⟨hs', tables, buffers, ?_, ?_⟩
  · have lt := h.sound.standing.definitions
    cases stride with
    | change change frame =>
      rw [show w'.openDefinitions = w.openDefinitions from congrArg Frame.definitions frame]
      exact h.outOfReach.change lt change
    | turn turn => exact turn.outOfReach h.sound h.outOfReach
    | refer refers frame =>
      rw [show w'.openDefinitions = w.openDefinitions from congrArg Frame.definitions frame]
      refine h.outOfReach.keep fun i hi s hs isVariable => ?_
      obtain ⟨u, hu⟩ := Arena.exists_get? (lt i hi)
      obtain ⟨s', hs', same⟩ := refers.symbol hu
      rw [hs] at hs'
      cases hs'
      have kind : s.asVariable? = u.asVariable? :=
        (congrArg Symbol.asVariable? same :)
      exact ⟨u, hu, kind ▸ isVariable, (congrArg Symbol.attached same :)⟩
  · cases stride with
    | change change => exact h.proper.change change
    | turn turn => exact turn.properTypes h.proper
    | refer refers =>
      refine ⟨fun i s v hs hk => ?_, refers.fields ▸ h.proper.fields⟩
      obtain ⟨u, hu, same⟩ := Option.map_eq_some_iff.1
        ((refers.symbols i).symm.trans (congrArg (Option.map Symbol.uncounted) hs))
      have kind : u.kind = s.kind := (congrArg Symbol.kind same :)
      exact h.proper.symbols i u v hu (kind.trans hk)

theorem Strides.regular (strides : Strides w w') (h : Regular w) : Regular w' := by
  induction strides with
  | refl => exact h
  | tail _ step ih => exact step.1.regular step.2 ih

theorem regular_start (env : Env) (notes : Annotations) : Regular (start env notes) where
  sound := sound_start env notes
  tables := tables_start env notes
  buffers := buffers_start env notes
  outOfReach := by simp [start, OutOfReach]
  proper := by
    refine ⟨fun i s v hs hk => ?_, fun f v hv => ?_⟩
    · rcases Arena.get?_push_cases (a := ⟨#[]⟩) hs with ⟨-, rfl⟩ | hnone
      · cases hk
      · cases hnone
    · cases hv

end Walk

end AblResolve
