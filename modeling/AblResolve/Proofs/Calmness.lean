import AblResolve.Proofs.Deeds
/-!
Which operations are calm. `Calmly` says it of a computation, `Logs` says which deeds a computation
does that is not calm throughout; both are closed under sequencing. References are calm but for the
tables they load, and so are clauses and the bodies of table definitions.
-/
namespace AblResolve.Walk

open UnitIndex

variable {α β : Type} {env : Env} {l : Licence}

/-! ### Results -/

section Results

variable {w w' : Walk}

theorem fetch_ok {e : Entity} {a : Arena e α} {i : Id e} {v : α} :
    fetch a i w = .ok v w' ↔ a.get? i = some v ∧ w = w' := by
  unfold fetch
  cases a.get? i with
  | none => exact ⟨nofun, nofun⟩
  | some u =>
    exact ⟨fun h => by cases h; exact ⟨rfl, rfl⟩, fun ⟨h, h'⟩ => by cases h; cases h'; rfl⟩

theorem symbolAt_ok {i : SymbolId} {s : Symbol} :
    symbolAt i w = .ok s w' ↔ w.index.symbols.get? i = some s ∧ w = w' := fetch_ok

theorem scopeAt_ok {i : ScopeId} {s : Scope} :
    scopeAt i w = .ok s w' ↔ w.index.scopes.get? i = some s ∧ w = w' := fetch_ok

theorem tableAt_ok {i : TableId} {t : Table} :
    tableAt i w = .ok t w' ↔ w.index.tables.get? i = some t ∧ w = w' := fetch_ok

theorem fieldAt_ok {i : FieldId} {f : Field} :
    fieldAt i w = .ok f w' ↔ w.index.fields.get? i = some f ∧ w = w' := fetch_ok

theorem updateSymbol_ok {i : SymbolId} {f : Symbol → Symbol}
    (h : updateSymbol i f w = .ok () w') :
    w' = { w with index := { w.index with symbols := w.index.symbols.update i f } } := by
  unfold updateSymbol at h
  obtain ⟨s, w₁, hs, hmodify⟩ := bind_ok.1 h
  obtain ⟨-, rfl⟩ := symbolAt_ok.1 hs
  cases hmodify
  rfl

theorem updateScope_ok {i : ScopeId} {f : Scope → Scope} (h : updateScope i f w = .ok () w') :
    (∃ s, w.index.scopes.get? i = some s) ∧
      w' = { w with index := { w.index with scopes := w.index.scopes.update i f } } := by
  unfold updateScope at h
  obtain ⟨s, w₁, hs, hmodify⟩ := bind_ok.1 h
  obtain ⟨found, rfl⟩ := scopeAt_ok.1 hs
  cases hmodify
  exact ⟨⟨s, found⟩, rfl⟩

end Results

/-! ### Calm computations -/

/-- If the computation gives a result, it has been calm. -/
def Calmly (l : Licence) (m : WalkM α) : Prop := ∀ w a w', m w = .ok a w' → Calm l w w'

namespace Calmly

theorem pure (a : α) : Calmly l (pure a : WalkM α) := by
  intro w a' w' h
  cases h
  exact .refl l w

theorem throw (f : Fault) : Calmly l (throw f : WalkM α) := fun _ _ _ h => nomatch h

theorem breach (b : Breach) : Calmly l (breach b : WalkM α) := .throw _

theorem misplaced (m : Misplacement) : Calmly l (misplaced m : WalkM α) := .throw _

theorem bind {m : WalkM β} {f : β → WalkM α} (h : Calmly l m) (k : ∀ b, Calmly l (f b)) :
    Calmly l (m >>= f) := by
  intro w a w' hok
  obtain ⟨b, w₁, hm, hf⟩ := bind_ok.1 hok
  exact (h w b w₁ hm).trans (k b w₁ a w' hf)

theorem map {m : WalkM β} (f : β → α) (h : Calmly l m) : Calmly l (f <$> m) := by
  rw [map_eq_pure_bind]
  exact h.bind fun b => .pure (f b)

theorem ite {c : Prop} [Decidable c] {m m' : WalkM α} (h : Calmly l m) (k : Calmly l m') :
    Calmly l (if c then m else m') := by
  split
  · exact h
  · exact k

theorem when {c : Prop} [Decidable c] {m : WalkM PUnit} (h : Calmly l m) :
    Calmly l (if c then m else Pure.pure PUnit.unit) :=
  .ite h (.pure _)

/-- Something is done first if that is asked for; either way it goes on. -/
theorem after {c : Prop} [Decidable c] {m : WalkM Unit} {k : Unit → WalkM α} (h : Calmly l m)
    (rest : ∀ u, Calmly l (k u)) : Calmly l (if c then m >>= k else k ()) :=
  .ite (.bind h rest) (rest ())

theorem forM {bs : List β} {f : β → WalkM PUnit} (round : ∀ b, Calmly l (f b)) :
    Calmly l (bs.forM f) := by
  induction bs with
  | nil => exact .pure _
  | cons b bs ih => exact (round b).bind fun _ => ih

theorem mapM {bs : List β} {f : β → WalkM α} (round : ∀ b, Calmly l (f b)) :
    Calmly l (bs.mapM f) := by
  induction bs with
  | nil =>
    rw [List.mapM_nil]
    exact .pure _
  | cons b bs ih =>
    rw [List.mapM_cons]
    exact (round b).bind fun _ => ih.bind fun _ => .pure _

/-! ### The state -/

theorem get {f : Walk → WalkM α} (k : ∀ w, Calmly l (f w)) : Calmly l (get >>= f) :=
  fun w a w' h => k w w a w' h

theorem read : Calmly l (MonadStateOf.get : WalkM Walk) := by
  intro w v w' hok
  cases hok
  exact .refl l w

theorem modify {f : Walk → Walk} (h : ∀ w, Calm l w (f w)) : Calmly l (modify f) := by
  intro w a w' hok
  cases hok
  exact h w

/-- What is open changes, or what nodes are told. -/
theorem reframe {f : Walk → Walk} (h : ∀ w, (f w).index = w.index ∧ (f w).forwards = w.forwards ∧
    (f w).openEvent = w.openEvent ∧ (f w).notes = w.notes) : Calmly l (modifyThe Walk f) :=
  .modify fun w => .same (h w).1 (h w).2.1 (h w).2.2.1 (h w).2.2.2

theorem theIndex : Calmly l theIndex := .get fun _ => .pure _

theorem modifyIndex {f : UnitIndex → UnitIndex}
    (h : ∀ w : Walk, Calm l w { w with index := f w.index }) :
    Calmly l (modifyIndex f) :=
  .modify h

theorem report (d : Diagnostic) :
    Calmly l (report d) := .modifyIndex fun w => { Calm.refl l w with }

theorem annotate {n : NodeId} (licensed : l.nodes n) (f : Annotation → Annotation) :
    Calmly l (annotate n f) :=
  .modify fun _ => .annotate licensed

theorem remark (n : NodeId) {f : Annotation → Annotation} (h : ∀ a, (f a).heading = a.heading) :
    Calmly l (Walk.annotate n f) :=
  .modify fun _ => .remark h

theorem noteAt (n : NodeId) : Calmly l ( annotation n) := .get fun _ => .pure _

theorem demand (condition : Bool) (b : Breach) : Calmly l (demand condition b) :=
  .ite (.pure _) (.breach b)

theorem qualify (env : Env) (n : NodeId) (q : Qualifier) : Calmly l (qualify env n q) :=
  .when (.reframe fun _ => ⟨rfl, rfl, rfl, rfl⟩)

theorem hint (n : NodeId) (h : TableHint) : Calmly l (hint n h) :=
  .reframe fun _ => ⟨rfl, rfl, rfl, rfl⟩

theorem takeQualifier (env : Env) (n : NodeId) : Calmly l (takeQualifier env n) := by
  refine .get fun w => .bind (.reframe fun _ => ⟨rfl, rfl, rfl, rfl⟩) fun _ => ?_
  dsimp only [SideTable.take]
  cases w.qualifiers.find? n with
  | some q => exact .pure q
  | none => exact .after (.modifyIndex fun w => { Calm.refl l w with }) fun _ => .pure _

theorem takeHint (n : NodeId) : Calmly l (takeHint n) :=
  .get fun _ => .bind (.reframe fun _ => ⟨rfl, rfl, rfl, rfl⟩) fun _ => .pure _

/-! ### Elements by number -/

theorem fetch {e : Entity} (a : Arena e α) (i : Id e) : Calmly l (fetch a i) := by
  intro w v w' h
  obtain ⟨-, rfl⟩ := fetch_ok.1 h
  exact .refl l _

theorem symbolAt (s : SymbolId) : Calmly l (symbolAt s) := .bind .theIndex fun _ => .fetch _ s

theorem scopeAt (s : ScopeId) : Calmly l (scopeAt s) := .bind .theIndex fun _ => .fetch _ s

theorem blockAt (b : BlockId) : Calmly l (blockAt b) := .bind .theIndex fun _ => .fetch _ b

theorem tableAt (t : TableId) : Calmly l (tableAt t) := .bind .theIndex fun _ => .fetch _ t

theorem fieldAt (f : FieldId) : Calmly l (fieldAt f) := .bind .theIndex fun _ => .fetch _ f

theorem indexAt (i : IndexId) : Calmly l (indexAt i) := .bind .theIndex fun _ => .fetch _ i

theorem updateSymbol (s : SymbolId) {f : Symbol → Symbol} (h : ∀ s, (f s).core = s.core) :
    Calmly l (updateSymbol s f) :=
  .bind (.symbolAt s) fun _ => .modifyIndex fun _ => .updateSymbol fun s _ => h s

theorem updateScope (s : ScopeId) {f : Scope → Scope} (h : ∀ s, (f s).names = s.names) :
    Calmly l (updateScope s f) :=
  .bind (.scopeAt s) fun _ => .modifyIndex fun _ => .updateScope h

theorem updateBlock (b : BlockId) (f : Block → Block) : Calmly l (updateBlock b f) :=
  .bind (.blockAt b) fun _ => .modifyIndex fun w => { Calm.refl l w with }

section Tables

variable (licensed : l.tables)
include licensed

theorem updateTable (t : TableId) {f : Table → Table} (h : ∀ t, (f t).kind = t.kind) :
    Calmly l (updateTable t f) :=
  .bind (.tableAt t) fun _ => .modifyIndex fun w => { Calm.refl l w with
    kinds := Arena.keeps_update fun t _ => h t
    tables := absurd licensed }

theorem updateField (f : FieldId) (g : Field → Field) : Calmly l (updateField f g) :=
  .bind (.fieldAt f) fun _ => .modifyIndex fun w => { Calm.refl l w with
    fields := absurd licensed }

theorem updateTableIndex (i : IndexId) (f : TableIndex → TableIndex) :
    Calmly l (updateTableIndex i f) :=
  .bind (.indexAt i) fun _ => .modifyIndex fun w => { Calm.refl l w with
    indexes := absurd licensed }

end Tables

/-! ### Scopes and blocks -/

theorem currentScope : Calmly l currentScope := by
  refine .get fun w => ?_
  cases w.scopeStack with
  | nil => exact .breach _
  | cons s _ => exact .pure s

theorem currentBlock : Calmly l currentBlock := by
  refine .get fun w => ?_
  cases w.blockStack with
  | nil => exact .breach _
  | cons b _ => exact .pure b

theorem currentRoutine : Calmly l currentRoutine := by
  refine .bind .theIndex fun x => .bind .currentScope fun s => ?_
  cases x.enclosingRoutine? s with
  | none => exact .breach _
  | some r => exact .pure r

theorem enterScope (s : ScopeId) {n : NodeId} (licensed : l.nodes n) : Calmly l (enterScope s n) :=
  .bind (.scopeAt s) fun _ => .bind (.reframe fun _ => ⟨rfl, rfl, rfl, rfl⟩) fun _ =>
    .annotate licensed _

theorem openScope (kind : ScopeKind) {n : NodeId} (licensed : l.nodes n) :
    Calmly l (openScope kind n) :=
  .bind .currentScope fun _ => .bind .currentBlock fun _ => .bind .theIndex fun _ =>
    .bind (.modifyIndex fun w => { Calm.refl l w with scopes := Arena.grows_push rfl }) fun _ =>
      .bind (.enterScope _ licensed) fun _ => .pure _

theorem leaveScope : Calmly l leaveScope := by
  refine .get fun w => .get fun v => ?_
  rcases w.scopeStack with _ | ⟨scope, scopes⟩
  · exact .breach _
  rcases v.blockStack with _ | ⟨block, blocks⟩
  · exact .breach _
  refine .bind (.reframe fun _ => ⟨rfl, rfl, rfl, rfl⟩) fun _ => ?_
  exact .bind (.scopeAt scope) fun _ => .bind (.demand _ _) fun _ => .demand _ _

theorem openBlock (kind : BlockKind) {n : NodeId} (licensed : l.nodes n) :
    Calmly l (openBlock kind n) := by
  refine .bind .currentBlock fun _ => .bind .currentScope fun _ => .bind (.scopeAt _) fun _ => ?_
  refine .bind .theIndex fun _ => .bind (.demand _ _) fun _ => .bind .theIndex fun _ => ?_
  refine .bind (.modifyIndex fun w => { Calm.refl l w with }) fun _ => ?_
  exact .bind (.reframe fun _ => ⟨rfl, rfl, rfl, rfl⟩) fun _ => .annotate licensed _

theorem leaveBlock : Calmly l leaveBlock := by
  refine .get fun w => ?_
  rcases w.blockStack with _ | ⟨block, blocks⟩
  · exact .breach _
  · refine .bind (.reframe fun _ => ⟨rfl, rfl, rfl, rfl⟩) fun _ => ?_
    exact .bind (.blockAt block) fun _ => .demand _ _

theorem addBufferScope (block : BlockId) (buffer : SymbolId) (strength : Strength) :
    Calmly l (addBufferScope block buffer strength) :=
  .bind .theIndex fun _ => .bind (.modifyIndex fun w => { Calm.refl l w with }) fun _ =>
    .bind (.updateBlock block _) fun _ => .pure _

theorem bindReference (buffer : SymbolId) : Calmly l (bindReference buffer) := by
  refine .bind .currentBlock fun block => .bind .theIndex fun x => ?_
  cases x.enclosingBufferScope? block buffer with
  | some id => exact .pure id
  | none =>
    cases x.recordBlock? block with
    | some target => exact .addBufferScope target buffer .reference
    | none => exact .breach _

theorem bindWeakly (buffer : SymbolId) : Calmly l (bindWeakly buffer) := by
  refine .bind .currentBlock fun block => .bind .theIndex fun x => ?_
  cases (x.bufferScopesOf block).find? (x.scopesBuffer buffer) with
  | some id => exact .pure id
  | none => exact .addBufferScope block buffer .weak

/-! ### Symbols -/

theorem beginDefinition (s : SymbolId) : Calmly l (beginDefinition s) :=
  .reframe fun _ => ⟨rfl, rfl, rfl, rfl⟩

theorem endDefinition (s : SymbolId) : Calmly l (endDefinition s) := by
  refine .get fun w => ?_
  rcases w.openDefinitions with _ | ⟨innermost, outer⟩
  · exact .breach _
  · exact .ite (.reframe fun _ => ⟨rfl, rfl, rfl, rfl⟩) (.breach _)

theorem noteReference (s : SymbolId) (q : Qualifier) : Calmly l (noteReference s q) :=
  .updateSymbol s fun _ => rfl

/-- Clauses give types to variables and to fields of tables that are being defined. -/
theorem updateType (licensed : l.tables) (s : SymbolId) (f : ValueType → ValueType) :
    Calmly l (updateType s f) := by
  intro w a w' hok
  unfold Walk.updateType at hok
  obtain ⟨v, w₁, hs, hrest⟩ := bind_ok.1 hok
  obtain ⟨found, rfl⟩ := symbolAt_ok.1 hs
  cases hk : v.kind with
  | «variable» u =>
    rw [hk] at hrest
    rw [updateSymbol_ok hrest]
    refine .updateSymbol fun v' hv' => ?_
    rw [found] at hv'
    cases hv'
    simp [Symbol.core, SymbolKind.core, Symbol.asRoutine?, hk]
  | fieldBuffer b =>
    rw [hk] at hrest
    exact Calmly.updateField licensed _ _ _ _ _ hrest
  | _ =>
    rw [hk] at hrest
    cases hrest
    exact .refl l _

theorem setDataType (licensed : l.tables) (s : SymbolId) (type : DataType)
    (className : Option String) : Calmly l (setDataType s type className) :=
  .updateType licensed s _

theorem setExtent (licensed : l.tables) (s : SymbolId) (extent : Extent) :
    Calmly l (setExtent s extent) :=
  .updateType licensed s _

theorem copyType (licensed : l.tables) (source target : SymbolId) :
    Calmly l (copyType source target) := by
  refine .bind .theIndex fun x => .bind (.symbolAt source) fun v => ?_
  dsimp only
  cases (x.typeOf v).dataType with
  | none => exact .setExtent licensed target _
  | some t => exact .bind (.setDataType licensed target t _) fun _ => .setExtent licensed target _

end Calmly

end AblResolve.Walk
