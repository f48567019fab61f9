import AblResolve.Proofs.Course
import AblResolve.Proofs.TableDefinition
import AblResolve.Walk.Perform
/-!
Performing actions. An action whose needs are met does what `Act` says to the frame and nothing
that a run could not do, apart from counting a use. It fails only if the node is misplaced or if
a node carries the number of a symbol that does not exist, left there by an earlier analysis.
-/
namespace AblResolve.Walk

open UnitIndex

/-- The state after record `r` has bound buffer `b` to the current block. -/
def boundStrongly (w : Walk) (r : NodeId) (b : SymbolId) : Walk :=
  { w with
    index := w.index.bound w.block b .strong
    notes := w.notes.update r fun a => { a with bufferScope := some w.index.bufferScopes.next } }

/-- Record `r`, a child of the list of buffers `n`, binds the buffer `b` that it stands for to the
current block. -/
structure BindsStrongly (env : Env) (n : NodeId) (w : Walk) (r : NodeId) (b : SymbolId) :
    Prop where
  kind : env.tree.kind n = .blockFor
  child : r ∈ env.tree.children n
  record : env.tree.kind r = .record
  symbol : (w.notes.get r).symbol = some b
  change : w.index.Change w.openDefinitions False False (w.index.bound w.block b .strong)

/-- What an action does to the state. -/
inductive Performs (env : Env) (n : NodeId) (w : Walk) : Action → Walk → Prop
  | runs {action : Action} {w' : Walk} (quiet : action.isLate = false) (runs : Runs env n w w') :
      Performs env n w action w'
  | bind {r : NodeId} {b : SymbolId} (binds : BindsStrongly env n w r b) :
      Performs env n w (.bindStrongly r) (w.boundStrongly r b)
  | unused {c : NodeId} {q : Qualifier} (none : (w.notes.get c).symbol = none) :
      Performs env n w (.countUse c q) w
  | use {c : NodeId} {q : Qualifier} {s : SymbolId} (some : (w.notes.get c).symbol = some s)
      (found : s.val < w.index.symbols.size) :
      Performs env n w (.countUse c q) { w with index := w.index.counted s q }

/-- How an action at node `n`, entered in frame `F₀`, can fail. -/
inductive Faults (t : ParseTree) (n : NodeId) (F₀ : Frame) (stale : Prop) : Fault → Walk → Prop
  | misplaced {m : Misplacement} {w : Walk} (misfit : Misfit t n F₀ m) :
      Faults t n F₀ stale (.misplaced m) w
  | dangling {s : SymbolId} {size : Nat} {w : Walk} (why : stale) :
      Faults t n F₀ stale (.breach (.dangling .symbol s.val size)) w

section

variable {env : Env} {n : NodeId} {w w' : Walk} {action : Action}

theorem BindsStrongly.sound {r : NodeId} {b : SymbolId} (h : BindsStrongly env n w r b)
    (hs : Sound w) : Sound (w.boundStrongly r b) := by
  have moved : Sound { w with index := w.index.bound w.block b .strong } :=
    (Move.index (h.change.mono False.elim False.elim) : Move env n w _).sound hs
  exact { moved with }

theorem BindsStrongly.inRange {r : NodeId} {b : SymbolId} (h : BindsStrongly env n w r b)
    (hw : w.InRange) : (w.boundStrongly r b).InRange := by
  intro m s hs
  refine h.change.extends.lt_symbols (hw m s ?_)
  by_cases hm : r = m
  · subst hm
    simpa [boundStrongly] using hs
  · simpa [boundStrongly, Annotations.get_update_of_ne hm] using hs

theorem BindsStrongly.meaning {r m : NodeId} {b : SymbolId} :
    Walk.meaning ((w.boundStrongly r b).notes.get m) = Walk.meaning (w.notes.get m) := by
  by_cases hm : r = m
  · subst hm
    simp [boundStrongly, Walk.meaning]
  · simp [boundStrongly, Annotations.get_update_of_ne hm]

theorem Performs.extends (h : Performs env n w action w') : w.index.Extends w'.index := by
  cases h with
  | runs _ runs => exact runs.extends
  | bind binds => exact binds.change.extends
  | unused => exact .refl _
  | use => exact extends_counted _ _ _

theorem Performs.sound (h : Performs env n w action w') (hs : Sound w) : Sound w' := by
  cases h with
  | runs _ runs => exact runs.sound hs
  | bind binds => exact binds.sound hs
  | unused => exact hs
  | use => exact hs.counted _ _

theorem Performs.inRange (h : Performs env n w action w') (hw : w.InRange) : w'.InRange := by
  cases h with
  | runs _ runs => exact runs.inRange hw
  | bind binds => exact binds.inRange hw
  | unused => exact hw
  | use => exact fun m s hs => (extends_counted _ _ _).lt_symbols (hw m s hs)

theorem Performs.apart (h : Performs env n w action w') {m : NodeId} (hne : m ≠ n)
    (hchild : m ∉ env.tree.children n) : w'.notes.get m = w.notes.get m := by
  cases h with
  | runs _ runs => exact runs.apart hne
  | bind binds =>
    refine Annotations.get_update_of_ne ?_ _ _
    rintro rfl
    exact hchild binds.child
  | unused => rfl
  | use => rfl

theorem Performs.meaning (h : Performs env n w action w') {m : NodeId}
    (hm : m ≠ n ∨ (env.tree.kind m).isName) :
    Walk.meaning (w'.notes.get m) = Walk.meaning (w.notes.get m) := by
  cases h with
  | runs _ runs => exact runs.meaning hm
  | bind => exact BindsStrongly.meaning
  | unused => rfl
  | use => rfl

end

variable (env : Env) (n : NodeId) {w : Walk} {F F₀ : Frame}

/-! ### Opening and closing -/

theorem runs_stacks {scopes : List ScopeId} {blocks : List BlockId} {event : Option SymbolId}
    (hframe : { w.frame with scopes, blocks, event } = F) (standing : Standing w.index F) :
    Runs env n w { w with scopeStack := scopes, blockStack := blocks, openEvent := event } := by
  subst hframe
  exact (Turn.reframe standing).runs

theorem ends_perform_leaveScope {s : ScopeId} {b : BlockId} (around : w.index.IsAround b s)
    (standing : Standing w.index F)
    (hframe : w.frame = { F with scopes := s :: F.scopes, blocks := b :: F.blocks }) :
    Ends leaveScope w Never fun _ w' => Runs env n w w' ∧ w'.frame = F := by
  have hF : { w.frame with scopes := F.scopes, blocks := F.blocks } = F := by rw [hframe]
  rw [ends_leaveScope (congrArg Frame.scopes hframe) (congrArg Frame.blocks hframe) around
    standing.scopes]
  exact ⟨runs_stacks env n hF standing, hF⟩

theorem ends_perform_leaveBlock {b : BlockId} (control : w.index.IsControl b)
    (standing : Standing w.index F)
    (hframe : w.frame = { F with blocks := b :: F.blocks }) :
    Ends leaveBlock w Never fun _ w' => Runs env n w w' ∧ w'.frame = F := by
  have hF : { w.frame with blocks := F.blocks } = F := by rw [hframe]
  rw [ends_leaveBlock (congrArg Frame.blocks hframe) control]
  exact ⟨runs_stacks env n hF standing, hF⟩

theorem ends_perform_endDefinition {s : SymbolId} (plain : w.index.IsPlain s)
    (hframe : w.frame = { F with definitions := s :: F.definitions }) :
    Ends (endDefinition s) w Never fun _ w' => Runs env n w w' ∧ w'.frame = F := by
  have hF : { w.frame with definitions := F.definitions } = F := by rw [hframe]
  have opened : w.openDefinitions = s :: F.definitions := congrArg Frame.definitions hframe
  rw [ends_endDefinition opened]
  exact ⟨(Turn.endDefinition opened plain.2).runs, hF⟩

section Table

variable (hs : Sound w) {t : TableId} {b : SymbolId} (closed : F.table = none)
  (hframe : w.frame = { F with definitions := b :: F.definitions, table := some (t, b) })
include hs closed hframe

theorem ends_perform_closeTable (shapes : (env.tree.kind n).shapesTable) :
    Ends (perform env (.closeTable b)) w Never fun _ w' => Runs env n w w' ∧ w'.frame = F := by
  obtain ⟨d, hd, rfl, rfl⟩ := exists_tableDefinition (congrArg Frame.table hframe)
  have opened : w.openDefinitions = d.buffer :: F.definitions :=
    congrArg Frame.definitions hframe
  have isBuffer : w.index.IsBuffer d.buffer := ⟨_, (hs.openBuffer hd).1⟩
  have ended : Turn w { w with openDefinitions := F.definitions } :=
    .endDefinition opened isBuffer.isPlain.2
  have hF : { Walk.frame { w with openDefinitions := F.definitions } with table := none } = F := by
    show { w.frame with definitions := F.definitions, table := none } = F
    rw [hframe, ← closed]
  unfold perform
  rw [ends_bind, ends_takeOpenTable hd, ends_bind, ends_endDefinition (by exact opened)]
  refine (ends_finishTable env n shapes (ended.sound hs) (by exact hd)).imp ?_
  rintro _ w' ⟨runs, frame⟩
  exact ⟨ended.runs.trans runs, frame.trans hF⟩

/-- A table definition that is given up leaves its table as it is. -/
theorem ends_perform_abandonTable :
    Ends (perform env (.abandonTable b)) w Never fun _ w' =>
      Sound w' ∧ w'.index = w.index ∧ w'.frame = F := by
  obtain ⟨d, hd, rfl, rfl⟩ := exists_tableDefinition (congrArg Frame.table hframe)
  have opened : w.openDefinitions = d.buffer :: F.definitions :=
    congrArg Frame.definitions hframe
  unfold perform
  rw [ends_bind, ends_takeOpenTable hd, ends_endDefinition (by exact opened)]
  refine ⟨{ hs.closeTable with standing := hs.closeTable.standing.closeDefinition opened }, rfl, ?_⟩
  show { w.frame with definitions := F.definitions, table := none } = F
  rw [hframe, ← closed]

end Table

theorem ends_perform_joinField (hs : Sound w) {s : SymbolId} {b : FieldBuffer} {t : TableId}
    (reaches : w.index.asFieldBuffer? s = some b) (table : F.table = some (t, b.buffer))
    (hframe : w.frame = { F with definitions := s :: F.definitions }) :
    Ends (joinField b.field s) w Never fun _ w' => Runs env n w w' ∧ w'.frame = F := by
  have htable : w.frame.table = some (t, b.buffer) := (congrArg Frame.table hframe).trans table
  obtain ⟨d, hd, same⟩ := exists_tableDefinition htable
  refine (ends_joinField env n hs hd (congrArg Frame.definitions hframe) reaches
    same.2.symm).imp ?_
  rintro _ w' ⟨runs, hsame⟩
  refine ⟨runs, hsame.trans ?_⟩
  rw [hframe]

/-! ### Records that have been visited -/

section Records

variable {a : ScopeId} {r : NodeId} (hs : Sound w) (resolved : Resolved w a r)
include resolved

theorem ends_recordBuffer : Ends (recordBuffer r) w Never fun b w' => w' = w ∧
    (w.notes.get r).symbol = some b ∧ w.index.IsBuffer b ∧ w.index.Sees a b ∧
      w.index.IsAttached b := by
  obtain ⟨b, hb, hbuffer, hsees, hattached⟩ := resolved
  unfold recordBuffer
  rw [ends_bind, ends_annotation, hb]
  exact ⟨rfl, rfl, hbuffer, hsees, hattached⟩

include hs

theorem ends_recordTable :
    Ends (do bufferTable (← recordBuffer r)) w Never fun t w' => w' = w ∧
      t.val < w.index.tables.size := by
  rw [ends_bind]
  refine (ends_recordBuffer resolved).imp ?_
  rintro b _ ⟨rfl, -, ⟨t, ht⟩, -⟩
  obtain ⟨symbol, buffer, hsymbol, hkind, rfl⟩ := bufferTable?_eq_some.1 ht
  have ok := (hs.coherent.symbols hsymbol).kind
  rw [hkind] at ok
  unfold bufferTable
  rw [ends_bind, ends_theIndex, ht]
  exact ⟨rfl, ok.1⟩

theorem ends_createBuffer (hkind : (env.tree.kind n).isBufferDefinition) :
    Ends (createBuffer env n (some r)) w Never fun b w' => Moves env n w w' ∧
      w'.index.Names w.scope .buffer b ∧ b ∉ w'.openDefinitions ∧ w'.index.IsBuffer b ∧
      w'.index.Unbound b := by
  have table := ends_recordTable hs resolved
  rw [ends_bind] at table
  unfold createBuffer
  dsimp only
  rw [ends_bind]
  refine table.imp fun buffer w₁ h => ?_
  rw [ends_bind]
  apply h.imp
  rintro t w₂ ⟨hw, ht⟩
  rw [hw, ends_bind, ends_currentScope hs]
  have hnode : (env.tree.kind n).isName = false := by
    revert hkind
    cases env.tree.kind n <;> simp [NodeKind.isBufferDefinition]
  have hinitial : w.index.Initial (.tableBuffer { table := t, isDefault := false }) :=
    ⟨rfl, rfl, ht⟩
  refine (ends_createSymbol env n _ hs.scope_lt hinitial hnode fun _ => rfl).imp ?_
  rintro b w₃ ⟨moves, hget, rfl, defines⟩
  have hnames : w₃.index.Names w.scope .buffer w.index.symbols.next := ⟨_, hget, rfl, rfl⟩
  have closed : w.index.symbols.next ∉ w₃.openDefinitions :=
    (Moves.openDefinitions env n moves).symm ▸ hs.next_notMem
  refine ⟨moves, hnames, closed, hnames.isBuffer (.inl rfl), fun id binding hbinding hsame => ?_⟩
  rw [defines.bufferScopes] at hbinding
  have hlt := (hs.coherent.bufferScopes hbinding).isBuffer.lt_size
  rw [hsame] at hlt
  exact Nat.lt_irrefl _ hlt

end Records

/-! ### Actions that refer to fields -/

theorem ends_copyFieldType (hs : Sound w) (field : NodeId) {target : SymbolId}
    (hkind : env.tree.kind n = .likeClause) (isOpen : target ∈ w.openDefinitions) :
    Ends (copyFieldType env field target) w (Faults env.tree n F₀ (¬ w.InRange)) fun _ w' =>
      Moves env n w w' := by
  unfold copyFieldType
  rw [ends_bind, ends_annotation]
  cases hsymbol : (w.notes.get field).symbol with
  | none => exact .single (.index (.report _ nofun (fun _ => by rw [hkind]; rfl) nofun))
  | some source =>
    by_cases hlt : source.val < w.index.symbols.size
    · exact (ends_copyType env n hs hlt (by rw [hkind]; rfl) isOpen).imp fun _ _ => id
    · unfold copyType
      rw [ends_bind, ends_theIndex, ends_bind, ends_symbolAt_none hlt]
      exact .dangling fun hw => hlt (hw field source hsymbol)

theorem ends_setColumns {browse : SymbolId} (columns : List NodeId)
    (found : browse.val < w.index.symbols.size) :
    Ends (setColumns browse columns) w Never fun _ w' => Moves env n w w' := by
  unfold setColumns
  rw [ends_bind, ends_get]
  refine (ends_revise env n found fun v _ => ?_).imp fun _ _ => And.left
  split
  · rename_i b hkind
    exact .columns hkind _
  · exact .unchanged

theorem ends_countUse (field : NodeId) (q : Qualifier) :
    Ends (countUse field q) w (Faults env.tree n F₀ (¬ w.InRange)) fun _ w' =>
      Performs env n w (.countUse field q) w' ∧ w'.frame = w.frame := by
  unfold countUse
  rw [ends_bind, ends_annotation]
  cases hsymbol : (w.notes.get field).symbol with
  | none => exact ⟨.unused hsymbol, rfl⟩
  | some s =>
    by_cases hlt : s.val < w.index.symbols.size
    · dsimp only
      rw [ends_noteReference hlt]
      exact ⟨.use hsymbol hlt, rfl⟩
    · unfold noteReference updateSymbol
      dsimp only
      rw [ends_bind, ends_symbolAt_none hlt]
      exact .dangling fun hw => hlt (hw field s hsymbol)

/-! ### Actions that refer to records -/

section Records

variable {a : ScopeId} {r : NodeId} (hs : Sound w) (resolved : Resolved w a r)
include hs resolved

theorem ends_perform_copyFields (kind : env.tree.kind n = .tableLike)
    (table : w.frame.table = F₀.table) :
    Ends (perform env (.copyFields r)) w (Faults env.tree n F₀ (¬ w.InRange)) fun _ w' =>
      Moves env n w w' := by
  have htable := ends_recordTable hs resolved
  rw [ends_bind] at htable
  unfold perform
  rw [ends_bind]
  refine htable.imp fun b w₁ h => ?_
  rw [ends_bind]
  apply h.imp
  rintro t w₂ ⟨hw, ht⟩
  rw [hw]
  cases hd : w.tableDefinition with
  | some d => exact (ends_copyFields env n hs hd ht (by rw [kind]; rfl)).imp fun _ _ => id
  | none =>
    unfold copyFields updateOpenTable
    rw [ends_bind, ends_bind, ends_openTable_none hd]
    refine .misplaced (.tableClause (by rw [kind]; rfl) ?_)
    rw [← table, Walk.frame, hd]
    rfl

theorem ends_addTableParameter (mode : ParameterMode) :
    Ends (addTableParameter r mode) w Never fun _ w' => Moves env n w w' := by
  unfold addTableParameter
  rw [ends_bind]
  refine (ends_recordBuffer resolved).imp ?_
  rintro b w₁ ⟨hw, -, -, -, symbol, hsymbol, hattached⟩
  rw [hw, ends_bind, ends_symbolAt hsymbol, ends_bind, ends_demand hattached]
  exact (ends_addParameter env n hs mode (by simp)).imp fun _ _ => And.left

theorem ends_bindStrongly (kind : env.tree.kind n = .blockFor) (child : r ∈ env.tree.children n)
    (record : env.tree.kind r = .record) (scope : w.scope = a) :
    Ends (bindStrongly r) w Never fun _ w' =>
      Performs env n w (.bindStrongly r) w' ∧ w'.frame = w.frame := by
  obtain ⟨block, hblock, hscope⟩ := hs.current
  unfold bindStrongly
  rw [ends_bind]
  refine (ends_recordBuffer resolved).imp ?_
  rintro b w₁ ⟨hw, hsymbol, hbuffer, hsees, hattached⟩
  have bindable : w.index.Bindable block b .strong := by
    refine ⟨hbuffer, ?_, .inl hattached, by simp, by simp⟩
    rw [hscope, scope]
    exact hsees
  rw [hw, ends_bind, ends_currentBlock hs, ends_bind, ends_addBufferScope hblock, ends_annotate]
  exact ⟨.bind ⟨kind, child, record, hsymbol, .bind hblock bindable⟩, rfl⟩

theorem ends_perform_defineBuffer (kind : (env.tree.kind n).isBufferDefinition) :
    Ends (perform env (.defineBuffer n (some r))) w Never fun _ w' => Moves env n w w' := by
  unfold perform
  rw [ends_bind]
  refine (ends_createBuffer env n hs resolved kind).imp ?_
  rintro b w₁ ⟨moves, hnames, closed, -⟩
  exact (ends_attach env n (moves.runs.sound hs) ⟨_, _, hnames⟩ closed).imp
    fun _ _ h => moves.trans h.1

/-- A buffer parameter has just been created, so no block has been bound to it. -/
theorem ends_addBufferParameter (kind : (env.tree.kind n).isBufferDefinition) :
    Ends (addBufferParameter env n (some r)) w Never fun _ w' => Moves env n w w' := by
  unfold addBufferParameter
  rw [ends_bind]
  refine (ends_createBuffer env n hs resolved kind).imp ?_
  rintro b w₁ ⟨moves₁, hnames, closed, hbuffer, unbound⟩
  rw [ends_bind]
  have hs₁ := moves₁.runs.sound hs
  have hsees : w₁.index.Sees w₁.scope b := by
    refine ⟨w.scope, hnames.owner?, ?_⟩
    rw [moves₁.scope]
    exact mem_scopeChain_self _ _
  refine (ends_addParameter env n hs₁ .buffer fun _ => ⟨⟨_, _, hnames⟩, closed⟩).imp ?_
  rintro _ w₂ ⟨moves₂, offered, defines⟩
  have hs₂ := moves₂.runs.sound hs₁
  obtain ⟨scope, hscope⟩ := Arena.exists_get? hs₂.scope_lt
  obtain ⟨block, hblock, hsame, hroot⟩ := (hs₂.coherent.scopes hscope).rootBlock
  have alone : ∀ j ∈ block.bufferScopes, w₂.index.scopesBuffer b j = false := by
    intro j hj
    obtain ⟨binding, hbinding, -⟩ := (hs₂.coherent.blocks hblock).bufferScopes j hj
    have hne := unbound j binding (defines.bufferScopes ▸ hbinding)
    simpa [scopesBuffer, hbinding] using hne
  have bindable : w₂.index.Bindable block b .reference := by
    refine ⟨hbuffer.extends moves₂.runs.extends, ?_, offered rfl, fun _ => alone, fun _ => ?_⟩
    · rw [hsame]
      exact Moves.sees env n moves₂ hs₁ hsees
    · simp [Block.scopesRecords, hroot]
  rw [ends_bind, ends_currentScope hs₂, ends_bind, ends_scopeAt hscope, ends_bind,
    ends_addBufferScope hblock, ends_pure]
  exact (moves₁.trans moves₂).tail (.index (.bind hblock bindable))

end Records

/-! ### All actions -/

/-- An action with all that it needs. -/
theorem ends_perform {done : List NodeId} {action : Action} {F' : Frame} (hs : Sound w)
    (act : Act env n w.index F₀ done w.frame action F')
    (resolved : ∀ r ∈ done, Resolved w F₀.scope r) :
    Ends (perform env action) w (Faults env.tree n F₀ (¬ w.InRange)) fun _ w' =>
      Performs env n w action w' ∧ w'.frame = F' := by
  have quiet : ∀ {m : WalkM Unit} {action F'}, action.isLate = false →
      Ends m w Never (fun _ w' => Runs env n w w' ∧ w'.frame = F') →
      Ends m w (Faults env.tree n F₀ (¬ w.InRange)) fun _ w' =>
        Performs env n w action w' ∧ w'.frame = F' := by
    intro m action F' hlate h
    apply h.imp
    rintro _ w' ⟨runs, hframe⟩
    exact ⟨.runs hlate runs, hframe⟩
  have moving : ∀ {m : WalkM Unit} {action}, action.isLate = false →
      Ends m w Never (fun _ w' => Moves env n w w') →
      Ends m w (Faults env.tree n F₀ (¬ w.InRange)) fun _ w' =>
        Performs env n w action w' ∧ w'.frame = w.frame := by
    intro m action hlate h
    refine quiet hlate (h.imp fun _ w' moves => ?_)
    exact ⟨moves.runs, moves.frame⟩
  generalize hframe : w.frame = F at act
  cases act with
  | leaveScope around standing =>
    exact quiet rfl (ends_perform_leaveScope env n around standing hframe)
  | leaveBlock control standing =>
    exact quiet rfl (ends_perform_leaveBlock env n control standing hframe)
  | endDefinition F plain => exact quiet rfl (ends_perform_endDefinition env n plain hframe)
  | attach F attachable closed =>
    subst hframe
    exact moving rfl ((ends_attach env n hs attachable closed).imp fun _ _ => And.left)
  | addParameter F mode attachable closed =>
    subst hframe
    exact moving rfl
      ((ends_addParameter env n hs mode fun _ => ⟨attachable, closed⟩).imp fun _ _ => And.left)
  | closeEvent F found =>
    rename_i outer
    have hF : { w.frame with event := outer } = { F with event := outer } := by rw [hframe]
    have standing : Standing w.index { F with event := outer } :=
      { hframe ▸ hs.standing with event := found }
    exact ⟨.runs rfl (runs_stacks env n hF standing), hF⟩
  | copyType field kind isOpen =>
    have isOpen : _ ∈ w.openDefinitions := congrArg Frame.definitions hframe ▸ isOpen
    refine (ends_copyFieldType env n hs field kind isOpen).mono (fun _ _ => id) fun _ w' moves => ?_
    exact ⟨.runs rfl moves.runs, moves.frame.trans hframe⟩
  | setColumns F columns found =>
    exact hframe ▸ moving rfl (ends_setColumns env n columns found)
  | copyFields kind visited table =>
    refine (ends_perform_copyFields env n hs (resolved _ visited) kind (hframe ▸ table)).mono
      (fun _ _ => id) fun _ w' moves => ?_
    exact ⟨.runs rfl moves.runs, moves.frame.trans hframe⟩
  | joinField reaches table =>
    exact quiet rfl (ends_perform_joinField env n hs reaches table hframe)
  | closeTable t b closed kind =>
    exact quiet rfl (ends_perform_closeTable env n hs closed hframe kind)
  | defineBuffer F kind same visited =>
    rename_i record
    cases record with
    | none => exact .misplaced (.bufferWithoutTable kind same.symm)
    | some r =>
      exact hframe ▸ moving rfl
        (ends_perform_defineBuffer env n hs (resolved r (visited r rfl)) kind)
  | addBufferParameter F kind same visited =>
    rename_i record
    cases record with
    | none => exact .misplaced (.bufferWithoutTable kind same.symm)
    | some r =>
      exact hframe ▸ moving rfl
        (ends_addBufferParameter env n hs (resolved r (visited r rfl)) kind)
  | addTableParameter F mode visited =>
    exact hframe ▸ moving rfl
      (ends_addTableParameter env n hs (resolved _ visited) mode)
  | bindStrongly kind child record visited scope =>
    have hscope : w.scope = F₀.scope := by rw [Walk.scope, hframe, scope]
    exact (ends_bindStrongly env n hs (resolved _ visited) kind child record hscope).imp
      fun _ _ h => ⟨h.1, h.2.trans hframe⟩
  | countUse F q => exact hframe ▸ ends_countUse env n _ q

end AblResolve.Walk
