import AblResolve.Proofs.Likeness
import AblResolve.Walk.Scoping
import Mathlib.Data.List.Forall2
/-!
Two walks side by side. From states that are alike, two steps that run in parallel go on to states
that are alike or end with the same fault; the results are related as the steps say. Steps that
change the state by number and compare names only by their letters run in parallel with themselves.
-/
namespace AblResolve.Walk

variable {L : Likeness} {α β γ δ : Type}

/-- The clauses of the table definition stand at nodes that both trees have. -/
def Shares (L : Likeness) (d : TableDefinition) : Prop :=
  (∀ p ∈ d.useIndex, L.nodes p.2) ∧ ∀ p ∈ d.indexFields, L.nodes p.node

/-- The states are the same as far as they are compared. -/
structure Alike (L : Likeness) (w w' : Walk) : Prop where
  index : w.index.Alike L w'.index
  notes : ∀ n, w.notes.get n = w'.notes.get n
  scopeStack : w.scopeStack = w'.scopeStack
  blockStack : w.blockStack = w'.blockStack
  openDefinitions : w.openDefinitions = w'.openDefinitions
  qualifiers : w.qualifiers = w'.qualifiers
  hints : w.hints = w'.hints
  forwards : w.forwards = w'.forwards
  tableDefinition : w.tableDefinition.map L.definition = w'.tableDefinition.map L.definition
  shared : ∀ d, w.tableDefinition = some d → Shares L d
  openEvent : w.openEvent = w'.openEvent
  lastTable : w.lastTable = w'.lastTable
  previousTable : w.previousTable = w'.previousTable

/-- Two outcomes agree. If references are not counted, a walk may break off while it counts one,
which it does if the symbol does not exist. -/
inductive Agrees (L : Likeness) (V : α → β → Prop) :
    EStateM.Result Fault Walk α → EStateM.Result Fault Walk β → Prop
  | ok {a : α} {b : β} {w w' : Walk} (value : V a b) (state : w.Alike L w') :
      Agrees L V (.ok a w) (.ok b w')
  | error {f f' : Fault} {w w' : Walk} (fault : L.fault f = L.fault f') (state : w.Alike L w') :
      Agrees L V (.error f w) (.error f' w')
  | lostLeft {i size : Nat} {w : Walk} {r : EStateM.Result Fault Walk β}
      (uncounted : L.counts = false) :
      Agrees L V (.error (.breach (.dangling .symbol i size)) w) r
  | lostRight {i size : Nat} {w' : Walk} {r : EStateM.Result Fault Walk α}
      (uncounted : L.counts = false) :
      Agrees L V r (.error (.breach (.dangling .symbol i size)) w')

/-- From states that are alike, the steps agree. -/
def Parallel (L : Likeness) (V : α → β → Prop) (m : WalkM α) (m' : WalkM β) : Prop :=
  ∀ w w', w.Alike L w' → Agrees L V (m w) (m' w')

namespace Parallel

/-! ### Sequencing -/

section Sequencing

variable {V : α → β → Prop} {U : γ → δ → Prop}

theorem pure {a : α} {b : β} (h : V a b) : Parallel L V (pure a) (pure b) :=
  fun _ _ hw => .ok h hw

theorem bind {m : WalkM α} {m' : WalkM β} {f : α → WalkM γ} {f' : β → WalkM δ}
    (h : Parallel L V m m') (k : ∀ a b, V a b → Parallel L U (f a) (f' b)) :
    Parallel L U (m >>= f) (m' >>= f') := by
  intro w w' hw
  show Agrees L U (EStateM.bind m f w) (EStateM.bind m' f' w')
  unfold EStateM.bind
  have agrees := h w w' hw
  revert agrees
  generalize m w = r
  generalize m' w' = r'
  rintro (⟨value, state⟩ | ⟨fault, state⟩ | uncounted | uncounted)
  · exact k _ _ value _ _ state
  · exact .error fault state
  · exact .lostLeft uncounted
  · exact .lostRight uncounted

/-- The first steps give the same value. -/
theorem seq {m m' : WalkM α} {f : α → WalkM γ} {f' : α → WalkM δ} (h : Parallel L Eq m m')
    (k : ∀ a, Parallel L U (f a) (f' a)) : Parallel L U (m >>= f) (m' >>= f') :=
  h.bind fun a _ hab => hab ▸ k a

theorem map {m : WalkM α} {m' : WalkM β} {f : α → γ} {f' : β → δ} (h : Parallel L V m m')
    (k : ∀ a b, V a b → U (f a) (f' b)) : Parallel L U (f <$> m) (f' <$> m') := by
  rw [map_eq_pure_bind, map_eq_pure_bind]
  exact h.bind fun a b hab => .pure (k a b hab)

theorem throw {f f' : Fault} (h : L.fault f = L.fault f') :
    Parallel L V (throw f : WalkM α) (throw f' : WalkM β) :=
  fun _ _ hw => .error h hw

theorem breach (b : Breach) : Parallel L V (breach b : WalkM α) (breach b : WalkM β) := .throw rfl

theorem misplaced (m : Misplacement) :
    Parallel L V (misplaced m : WalkM α) (misplaced m : WalkM β) := .throw rfl

theorem ite {c c' : Prop} [Decidable c] [Decidable c'] {m n : WalkM α} {m' n' : WalkM β}
    (hc : c ↔ c') (h : Parallel L V m m') (k : Parallel L V n n') :
    Parallel L V (if c then m else n) (if c' then m' else n') := by
  by_cases hp : c
  · rw [if_pos hp, if_pos (hc.1 hp)]
    exact h
  · rw [if_neg hp, if_neg (mt hc.2 hp)]
    exact k

/-- Loops over lists whose elements correspond. -/
theorem forM {R : α → β → Prop} {as : List α} {bs : List β} {f : α → WalkM PUnit}
    {f' : β → WalkM PUnit} (h : List.Forall₂ R as bs)
    (round : ∀ a b, R a b → a ∈ as → Parallel L Eq (f a) (f' b)) :
    Parallel L Eq (as.forM f) (bs.forM f') := by
  induction h with
  | nil => exact .pure rfl
  | cons hab _ ih =>
    refine seq (round _ _ hab List.mem_cons_self) fun _ => ih fun a b hab ha => ?_
    exact round a b hab (List.mem_cons_of_mem _ ha)

/-- The same loop on both sides. -/
theorem forM_same {as : List α} {f f' : α → WalkM PUnit}
    (round : ∀ a ∈ as, Parallel L Eq (f a) (f' a)) : Parallel L Eq (as.forM f) (as.forM f') := by
  refine forM (R := Eq) (List.forall₂_same.2 fun _ _ => rfl) ?_
  rintro a _ rfl ha
  exact round a ha

theorem mapM_same {V : γ → δ → Prop} {as : List α} {f : α → WalkM γ} {f' : α → WalkM δ}
    (round : ∀ a ∈ as, Parallel L V (f a) (f' a)) :
    Parallel L (List.Forall₂ V) (as.mapM f) (as.mapM f') := by
  induction as with
  | nil =>
    rw [List.mapM_nil, List.mapM_nil]
    exact .pure .nil
  | cons a as ih =>
    rw [List.mapM_cons, List.mapM_cons]
    refine (round a List.mem_cons_self).bind fun _ _ hv => ?_
    refine (ih fun a ha => round a (List.mem_cons_of_mem _ ha)).bind fun _ _ hvs => ?_
    exact .pure (.cons hv hvs)

end Sequencing

/-! ### The state -/

theorem get : Parallel L (Alike L) get get := fun _ _ hw => .ok hw hw

theorem modify {f f' : Walk → Walk} (h : ∀ w w', w.Alike L w' → (f w).Alike L (f' w')) :
    Parallel L Eq (modify f) (modify f') :=
  fun w w' hw => .ok rfl (h w w' hw)

theorem theIndex : Parallel L (UnitIndex.Alike L) theIndex theIndex :=
  fun _ _ hw => .ok hw.index hw

theorem modifyIndex {f f' : UnitIndex → UnitIndex}
    (h : ∀ x y, x.Alike L y → (f x).Alike L (f' y)) :
    Parallel L Eq (modifyIndex f) (modifyIndex f') :=
  .modify fun _ _ hw => { hw with index := h _ _ hw.index }

theorem annotate (n : NodeId) (f : Annotation → Annotation) :
    Parallel L Eq (annotate n f) (annotate n f) := by
  refine .modify fun w w' hw => { hw with notes := fun m => ?_ }
  rw [Annotations.get_update, Annotations.get_update, hw.notes]

theorem noteOf (n : NodeId) : Parallel L Eq ( annotation n) ( annotation n) :=
  fun _ _ hw => .ok (hw.notes n) hw

theorem report {d d' : Diagnostic} (h : L.diagnostic d = L.diagnostic d') :
    Parallel L Eq (report d) (report d') := by
  refine .modifyIndex fun _ _ hx => { hx with diagnostics := ?_ }
  simp only [Diagnostics.add, List.map_append, hx.diagnostics, List.map_singleton, h]

theorem demand (condition : Bool) (b : Breach) :
    Parallel L Eq (demand condition b) (demand condition b) := by
  unfold Walk.demand
  split
  · exact .pure rfl
  · exact .breach b

/-! ### Elements by number -/

theorem fetch {e : Entity} {f : α → β} {a b : Arena e α} (h : a.map f = b.map f) (i : Id e) :
    Parallel L (fun v v' => f v = f v') (fetch a i) (fetch b i) := by
  unfold Walk.fetch
  rcases Arena.get?_of_map_eq h i with ⟨ha, hb⟩ | ⟨v, v', ha, hb, hv⟩
  · rw [ha, hb, Arena.size_of_map_eq h]
    exact .breach _
  · rw [ha, hb]
    exact .pure hv

theorem symbolAt (s : SymbolId) :
    Parallel L (fun v v' => L.symbol v = L.symbol v') (symbolAt s) (symbolAt s) :=
  .bind .theIndex fun _ _ hx => .fetch hx.symbols s

theorem scopeAt (s : ScopeId) :
    Parallel L (fun v v' => L.scope v = L.scope v') (scopeAt s) (scopeAt s) :=
  .bind .theIndex fun _ _ hx => .fetch hx.scopes s

theorem blockAt (b : BlockId) : Parallel L Eq (blockAt b) (blockAt b) :=
  .bind .theIndex fun _ _ hx => .fetch (f := id) (congrArg _ hx.blocks) b

theorem tableAt (t : TableId) : Parallel L (fun v v' => L.table v = L.table v' ∧
    ∀ n, v.definitionNode = some n → L.nodes n) (tableAt t) (tableAt t) := by
  refine .bind .theIndex fun x y hx => ?_
  unfold Walk.fetch
  rcases Arena.get?_of_map_eq hx.tables t with ⟨ha, hb⟩ | ⟨v, v', ha, hb, hv⟩
  · rw [ha, hb, Arena.size_of_map_eq hx.tables]
    exact .breach _
  · rw [ha, hb]
    exact .pure ⟨hv, hx.shared t v ha⟩

theorem fieldAt (f : FieldId) :
    Parallel L (fun v v' => L.field v = L.field v') (fieldAt f) (fieldAt f) :=
  .bind .theIndex fun _ _ hx => .fetch hx.fields f

theorem indexAt (i : IndexId) :
    Parallel L (fun v v' => L.tableIndex v = L.tableIndex v') (indexAt i) (indexAt i) :=
  .bind .theIndex fun _ _ hx => .fetch hx.indexes i

theorem updateSymbol {g g' : Symbol → Symbol} (s : SymbolId)
    (h : ∀ v v', L.symbol v = L.symbol v' → L.symbol (g v) = L.symbol (g' v')) :
    Parallel L Eq (updateSymbol s g) (updateSymbol s g') :=
  .bind (.symbolAt s) fun _ _ _ => .modifyIndex fun _ _ hx =>
    { hx with symbols := Arena.map_update_congr hx.symbols h s }

theorem updateScope {g g' : Scope → Scope} (s : ScopeId)
    (h : ∀ v v', L.scope v = L.scope v' → L.scope (g v) = L.scope (g' v')) :
    Parallel L Eq (updateScope s g) (updateScope s g') :=
  .bind (.scopeAt s) fun _ _ _ => .modifyIndex fun _ _ hx =>
    { hx with scopes := Arena.map_update_congr hx.scopes h s }

theorem updateBlock (b : BlockId) (g : Block → Block) :
    Parallel L Eq (updateBlock b g) (updateBlock b g) :=
  .bind (.blockAt b) fun _ _ _ => .modifyIndex fun _ _ hx =>
    { hx with blocks := by rw [hx.blocks] }

theorem updateTable {g g' : Table → Table} (t : TableId)
    (h : ∀ v v', L.table v = L.table v' → L.table (g v) = L.table (g' v'))
    (node : ∀ v, (g v).definitionNode = v.definitionNode) :
    Parallel L Eq (updateTable t g) (updateTable t g') := by
  refine .bind (.tableAt t) fun _ _ _ => .modifyIndex fun x y hx =>
    { hx with tables := Arena.map_update_congr hx.tables h t, shared := fun s table hs n hn => ?_ }
  rcases Arena.get?_update_cases hs with ⟨rfl, old, hold, rfl⟩ | ⟨-, hold⟩
  · exact hx.shared _ old hold n ((node old).symm.trans hn)
  · exact hx.shared s table hold n hn

theorem updateField {g g' : Field → Field} (f : FieldId)
    (h : ∀ v v', L.field v = L.field v' → L.field (g v) = L.field (g' v')) :
    Parallel L Eq (updateField f g) (updateField f g') :=
  .bind (.fieldAt f) fun _ _ _ => .modifyIndex fun _ _ hx =>
    { hx with fields := Arena.map_update_congr hx.fields h f }

theorem updateTableIndex {g g' : TableIndex → TableIndex} (i : IndexId)
    (h : ∀ v v', L.tableIndex v = L.tableIndex v' → L.tableIndex (g v) = L.tableIndex (g' v')) :
    Parallel L Eq (updateTableIndex i g) (updateTableIndex i g') :=
  .bind (.indexAt i) fun _ _ _ => .modifyIndex fun _ _ hx =>
    { hx with indexes := Arena.map_update_congr hx.indexes h i }

/-! ### Scopes and blocks -/

theorem currentScope : Parallel L Eq currentScope currentScope := by
  refine .bind .get fun w w' hw => ?_
  rw [hw.scopeStack]
  cases w'.scopeStack with
  | nil => exact .breach _
  | cons s _ => exact .pure rfl

theorem currentBlock : Parallel L Eq currentBlock currentBlock := by
  refine .bind .get fun w w' hw => ?_
  rw [hw.blockStack]
  cases w'.blockStack with
  | nil => exact .breach _
  | cons b _ => exact .pure rfl

theorem currentRoutine : Parallel L Eq currentRoutine currentRoutine := by
  refine .bind .theIndex fun x y hx => .seq .currentScope fun s => ?_
  rw [hx.enclosingRoutine?]
  cases y.enclosingRoutine? s with
  | none => exact .breach _
  | some r => exact .pure rfl

theorem enterScope (s : ScopeId) (n : NodeId) :
    Parallel L Eq (enterScope s n) (enterScope s n) := by
  refine .bind (.scopeAt s) fun v v' hv => ?_
  have around : v.rootBlock = v'.rootBlock := (congrArg Scope.rootBlock hv :)
  rw [around]
  refine .seq (.modify fun w w' hw => ?_) fun _ => .annotate n _
  exact { hw with
    scopeStack := by rw [hw.scopeStack]
    blockStack := by rw [hw.blockStack] }

theorem openScope (kind : ScopeKind) (n : NodeId) :
    Parallel L Eq (openScope kind n) (openScope kind n) := by
  refine .seq .currentScope fun parent => .seq .currentBlock fun parentBlock =>
    .bind .theIndex fun x y hx => ?_
  have scope := Arena.next_of_map_eq hx.scopes
  dsimp only
  rw [scope, hx.blocks]
  refine .seq (.modifyIndex fun x y hx => ?_) fun _ => .seq (.enterScope _ n) fun _ => .pure rfl
  exact { hx with
    scopes := Arena.map_push_congr hx.scopes rfl
    blocks := by rw [hx.blocks] }

theorem leaveScope : Parallel L Eq leaveScope leaveScope := by
  refine .bind .get fun w w' hw => .bind .get fun v v' hv => ?_
  rw [hw.scopeStack, hv.blockStack]
  rcases w'.scopeStack with _ | ⟨scope, scopes⟩
  · exact .breach _
  rcases v'.blockStack with _ | ⟨block, blocks⟩
  · exact .breach _
  refine .seq (.modify fun _ _ hw => { hw with scopeStack := rfl, blockStack := rfl }) fun _ => ?_
  refine .bind (.scopeAt scope) fun s s' hs => ?_
  have around : s.rootBlock = s'.rootBlock := (congrArg Scope.rootBlock hs :)
  rw [around]
  exact .seq (.demand _ _) fun _ => .demand _ _

theorem openBlock (kind : BlockKind) (n : NodeId) :
    Parallel L Eq (openBlock kind n) (openBlock kind n) := by
  refine .seq .currentBlock fun parent => .seq .currentScope fun scope =>
    .bind (.scopeAt scope) fun s s' hs => ?_
  have around : s.rootBlock = s'.rootBlock := (congrArg Scope.rootBlock hs :)
  rw [around]
  refine .bind .theIndex fun x y hx => ?_
  rw [hx.blockChain]
  refine .seq (.demand _ _) fun _ => .bind .theIndex fun x y hx => ?_
  rw [hx.blocks]
  refine .seq (.modifyIndex fun x y hx => { hx with blocks := by rw [hx.blocks] }) fun _ => ?_
  refine .seq (.modify fun w w' hw => ?_) fun _ => .annotate n _
  exact { hw with blockStack := by rw [hw.blockStack] }

theorem leaveBlock : Parallel L Eq leaveBlock leaveBlock := by
  refine .bind .get fun w w' hw => ?_
  rw [hw.blockStack]
  rcases w'.blockStack with _ | ⟨block, blocks⟩
  · exact .breach _
  · refine .seq (.modify fun _ _ hw => { hw with blockStack := rfl }) fun _ => ?_
    exact .seq (.blockAt block) fun _ => .demand _ _

theorem addBufferScope (block : BlockId) (buffer : SymbolId) (strength : Strength) :
    Parallel L Eq (addBufferScope block buffer strength)
      (addBufferScope block buffer strength) := by
  refine .bind .theIndex fun x y hx => ?_
  rw [hx.bufferScopes]
  refine .seq (.modifyIndex fun x y hx => ?_) fun _ =>
    .seq (.updateBlock block _) fun _ => .pure rfl
  exact { hx with bufferScopes := by rw [hx.bufferScopes] }

theorem bindReference (buffer : SymbolId) :
    Parallel L Eq (bindReference buffer) (bindReference buffer) := by
  refine .seq .currentBlock fun block => .bind .theIndex fun x y hx => ?_
  rw [hx.enclosingBufferScope?, hx.recordBlock?]
  cases y.enclosingBufferScope? block buffer with
  | some id => exact .pure rfl
  | none =>
    cases y.recordBlock? block with
    | some target => exact .addBufferScope target buffer .reference
    | none => exact .breach _

theorem bindWeakly (buffer : SymbolId) :
    Parallel L Eq (bindWeakly buffer) (bindWeakly buffer) := by
  refine .seq .currentBlock fun block => .bind .theIndex fun x y hx => ?_
  rw [hx.bufferScopesOf, hx.scopesBuffer]
  cases (y.bufferScopesOf block).find? (y.scopesBuffer buffer) with
  | some id => exact .pure rfl
  | none => exact .addBufferScope block buffer .weak

end Parallel

end AblResolve.Walk
