import AblResolve.Proofs.DeedsOfPlans
import AblResolve.Walk.Perform
/-!
What the actions of plans do. Only the end of a buffer definition writes on a node, and only on its
own.
-/
namespace AblResolve.Walk

open UnitIndex

variable {env : Env} {l : Licence} {w w' : Walk}

/-! ### Actions that do no deed -/

namespace Calmly

theorem prepare {n : NodeId} (step : Step env.tree n) : Calmly l (prepare env step) := by
  unfold Walk.prepare
  cases step.qualifier with
  | none =>
    cases step.hint with
    | none => exact .pure _
    | some h => exact .hint _ h
  | some q =>
    cases step.hint with
    | none => exact .bind (.qualify env _ q) fun _ => .pure _
    | some h => exact .bind (.qualify env _ q) fun _ => .hint _ h

theorem recordBuffer (record : NodeId) : Calmly l (recordBuffer record) := by
  refine .bind (.noteAt record) fun a => ?_
  cases a.symbol with
  | some s => exact .pure s
  | none => exact .breach _

theorem bufferTable (buffer : SymbolId) : Calmly l (bufferTable buffer) := by
  refine .bind .theIndex fun x => ?_
  cases x.bufferTable? buffer with
  | some t => exact .pure t
  | none => exact .breach _

theorem countUse (field : NodeId) (q : Qualifier) : Calmly l (countUse field q) := by
  refine .bind (.noteAt field) fun a => ?_
  cases a.symbol with
  | some s => exact .noteReference s q
  | none => exact .pure _

theorem bindStrongly (record : NodeId) : Calmly l (bindStrongly record) :=
  .bind (.recordBuffer record) fun _ => .bind .currentBlock fun _ =>
    .bind (.addBufferScope _ _ _) fun _ => .remark record fun _ => rfl

theorem setColumns (browse : SymbolId) (columns : List NodeId) :
    Calmly l (setColumns browse columns) := by
  refine .get fun w => .updateSymbol browse fun s => ?_
  cases hk : s.kind <;> simp [Symbol.core, SymbolKind.core, Symbol.asRoutine?, hk]

theorem copyFieldType (licensed : l.tables) (field : NodeId) (target : SymbolId) :
    Calmly l (copyFieldType env field target) := by
  refine .bind (.noteAt field) fun a => ?_
  cases a.symbol with
  | some source => exact .copyType licensed source target
  | none => exact .report _

theorem perform (licensed : l.tables) {a : Action} (idle : a.isIdle) :
    Calmly l (perform env a) := by
  cases a with
  | leaveScope => exact .leaveScope
  | leaveBlock => exact .leaveBlock
  | endDefinition s => exact .endDefinition s
  | copyType field target => exact .copyFieldType licensed field target
  | setColumns browse columns => exact .setColumns browse columns
  | copyFields record =>
    exact .bind (.recordBuffer record) fun _ => .bind (.bufferTable _) fun _ =>
      .copyFields licensed _
  | joinField field s => exact .joinField licensed field s
  | closeTable b =>
    exact .bind .takeOpenTable fun _ => .bind (.endDefinition b) fun _ =>
      .finishTable licensed env _
  | abandonTable b => exact .bind .takeOpenTable fun _ => .endDefinition b
  | bindStrongly record => exact .bindStrongly record
  | countUse field q => exact .countUse field q
  | attach | addParameter | closeEvent | defineBuffer | addBufferParameter | addTableParameter =>
    cases idle

end Calmly

/-! ### Buffers -/

theorem recordBuffer_ok {r : NodeId} {b : SymbolId} (hok : recordBuffer r w = .ok b w') :
    (w.notes.get r).symbol = some b ∧ w = w' := by
  unfold recordBuffer at hok
  obtain ⟨a, w₁, ha, hrest⟩ := bind_ok.1 hok
  cases ha
  cases hs : (w.notes.get r).symbol with
  | none =>
    rw [hs] at hrest
    cases hrest
  | some s =>
    rw [hs] at hrest
    cases hrest
    exact ⟨rfl, rfl⟩

theorem bufferTable_ok {b : SymbolId} {t : TableId} (hok : bufferTable b w = .ok t w') :
    w.index.bufferTable? b = some t ∧ w = w' := by
  unfold bufferTable at hok
  obtain ⟨x, w₁, hx, hrest⟩ := bind_ok.1 hok
  cases hx
  cases ht : w.index.bufferTable? b <;> rw [ht] at hrest <;> cases hrest
  exact ⟨rfl, rfl⟩

/-- A new buffer for the table of a record. -/
theorem createBuffer_ok {d : NodeId} {record : Option NodeId} {b : SymbolId}
    (hok : createBuffer env d record w = .ok b w') :
    ∃ t, b = w.index.symbols.next ∧ w' = { w with
      index := w.index.withSymbol {
        name := env.tree.definedName d, scope := w.scope, definitionNode := some d,
        kind := .tableBuffer { table := t, isDefault := false } }
      notes := w.notes.update d fun a => { a with symbol := some w.index.symbols.next } } := by
  unfold createBuffer at hok
  cases record with
  | none => cases hok
  | some r =>
    dsimp only at hok
    obtain ⟨c, w₁, hc, hrest⟩ := bind_ok.1 hok
    obtain ⟨-, rfl⟩ := recordBuffer_ok hc
    obtain ⟨t, w₂, ht, hrest⟩ := bind_ok.1 hrest
    obtain ⟨-, rfl⟩ := bufferTable_ok ht
    obtain ⟨scope, w₃, hscope, hcreate⟩ := bind_ok.1 hrest
    obtain ⟨rfl, rfl⟩ := currentScope_ok hscope
    obtain ⟨rfl, rfl⟩ := createSymbol_ok hcreate
    exact ⟨t, rfl, rfl⟩

theorem logs_createBuffer {d : NodeId} (licensed : l.nodes d) {record : Option NodeId}
    {b : SymbolId} (hok : createBuffer env d record w = .ok b w') :
    Log env l w [.make b .buffer] w' := by
  obtain ⟨t, rfl, rfl⟩ := createBuffer_ok hok
  let s : Symbol := {
    name := env.tree.definedName d, scope := w.scope, definitionNode := some d,
    kind := .tableBuffer { table := t, isDefault := false } }
  have makes := makes_buffer t
  exact .deed (.refl l w) (.make rfl (makes.named w.index s rfl) (absurd · makes.apart)
    (makes.bare s rfl)) (.calm (.annotate licensed))

/-! ### All actions -/

/-- What an action does. -/
inductive Acting (w w' : Walk) : Action → List Deed → Prop
  | idle {a : Action} (idle : a.isIdle) : Acting w w' a []
  | attach (s : SymbolId) : Acting w w' (.attach s) [.attach s]
  | closeEvent (outer : Option SymbolId) : Acting w w' (.closeEvent outer) [.turn outer]
  | addParameter {s : SymbolId} {mode : ParameterMode} {ds : List Deed}
      (joins : Joins w s mode true ds) : Acting w w' (.addParameter s mode) ds
  | defineBuffer (d : NodeId) (record : Option NodeId) (s : SymbolId) :
      Acting w w' (.defineBuffer d record) [.make s .buffer, .attach s]
  | addBufferParameter {d : NodeId} {record : Option NodeId} {s : SymbolId} {ds : List Deed}
      (noted : (w'.notes.get d).symbol = some s) (joins : Joins w s .buffer true ds) :
      Acting w w' (.addBufferParameter d record) (.make s .buffer :: ds)
  | addTableParameter {r : NodeId} {s : SymbolId} {mode : ParameterMode} {ds : List Deed}
      (found : (w.notes.get r).symbol = some s) (attached : w.index.IsAttached s)
      (joins : Joins w s mode false ds) : Acting w w' (.addTableParameter r mode) ds

/-- The nodes that an action may write on: that of a buffer which it defines. -/
def acting : Action → Licence
  | .defineBuffer d _ | .addBufferParameter d _ => { nodes := (· = d), tables := True }
  | _ => { tables := True }

theorem Joins.congr {s : SymbolId} {mode : ParameterMode} {attaching : Bool} {ds : List Deed}
    (h : Joins w s mode attaching ds) (event : w'.openEvent = w.openEvent)
    (around : w'.index.enclosingRoutine? w'.scope = w.index.enclosingRoutine? w.scope) :
    Joins w' s mode attaching ds := by
  cases h with
  | event reading => exact .event (event.trans reading)
  | routine free found => exact .routine (event.trans free) (around.trans found)

theorem perform_log {a : Action} (hok : perform env a w = .ok () w') :
    ∃ ds, Log env (acting a) w ds w' ∧ Acting w w' a ds := by
  have idle : a.isIdle → (acting a).tables →
      ∃ ds, Log env (acting a) w ds w' ∧ Acting w w' a ds := fun h licensed =>
    ⟨[], .calm (Calmly.perform licensed h w () w' hok), .idle h⟩
  cases a with
  | attach s =>
    obtain ⟨ds, log, rfl⟩ := logs_attach s w () w' hok
    exact ⟨_, log, .attach s⟩
  | addParameter s mode =>
    obtain ⟨ds, log, joins⟩ := addParameter_log env hok
    exact ⟨ds, log, .addParameter joins⟩
  | closeEvent outer =>
    cases hok
    exact ⟨_, (Effect.turn outer).log, .closeEvent outer⟩
  | defineBuffer d record =>
    obtain ⟨b, w₁, hcreate, hattach⟩ := bind_ok.1 hok
    obtain ⟨ds, log, rfl⟩ := logs_attach b w₁ () w' hattach
    exact ⟨_, (logs_createBuffer rfl hcreate).append log, .defineBuffer d record b⟩
  | addBufferParameter d record =>
    obtain ⟨b, w₁, hcreate, hrest⟩ := bind_ok.1 hok
    obtain ⟨_, w₂, hadd, hbind⟩ := bind_ok.1 hrest
    obtain ⟨ds, log, joins⟩ := addParameter_log env (l := {}) hadd
    have calm : Calm {} w₂ w' :=
      (Calmly.bind .currentScope fun _ => .bind (.scopeAt _) fun _ =>
        .bind (.addBufferScope _ _ _) fun _ => .pure _) w₂ () w' hbind
    have later := log.append (.calm calm)
    rw [List.append_nil] at later
    have made := logs_createBuffer (l := acting (.addBufferParameter d record)) rfl hcreate
    refine ⟨.make b .buffer :: ds, made.append (later.mono (fun _ => False.elim) False.elim),
      .addBufferParameter ?_ ?_⟩
    · have same : (w'.notes.get d).symbol = (w₁.notes.get d).symbol :=
        congrArg (·.1) (later.written (m := d) id)
      rw [same]
      obtain ⟨t, rfl, rfl⟩ := createBuffer_ok hcreate
      show ((w.notes.update d _).get d).symbol = _
      rw [Annotations.get_update_self]
    · obtain ⟨t, rfl, rfl⟩ := createBuffer_ok hcreate
      exact joins.congr rfl (enclosingRoutine?_withSymbol w.index _ w.scope).symm
  | addTableParameter r mode =>
    obtain ⟨b, w₁, hrecord, hrest⟩ := bind_ok.1 hok
    obtain ⟨found, rfl⟩ := recordBuffer_ok hrecord
    obtain ⟨symbol, w₂, hsymbol, hrest⟩ := bind_ok.1 hrest
    obtain ⟨get, rfl⟩ := symbolAt_ok.1 hsymbol
    obtain ⟨_, w₃, hdemand, hadd⟩ := bind_ok.1 hrest
    cases hattached : symbol.attached with
    | false =>
      rw [hattached] at hdemand
      cases hdemand
    | true =>
      rw [hattached] at hdemand
      cases hdemand
      obtain ⟨ds, log, joins⟩ := addParameter_log env hadd
      exact ⟨ds, log, .addTableParameter found ⟨symbol, get, hattached⟩ joins⟩
  | _ => exact idle rfl trivial

end AblResolve.Walk
