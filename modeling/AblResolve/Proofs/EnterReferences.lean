import AblResolve.Proofs.Lookup
import AblResolve.Proofs.Plans
import AblResolve.Walk.Enter
/-!
Entering the nodes that refer to something. Entering any node ends in one of three ways: the node
is admitted and the course of its plan is known, it is misplaced, or it is a record that names no
table.
-/
namespace AblResolve.Walk

open UnitIndex

/-- How entering node `n` can fail. -/
inductive Refused (env : Env) (n : NodeId) (w : Walk) : Fault → Walk → Prop
  | misplaced {m : Misplacement} {w' : Walk} (misfit : Misfit env.tree n w.frame m) :
      Refused env n w (.misplaced m) w'
  | unresolved {w' : Walk} (kind : env.tree.kind n = .record)
      (missing : Missing env w (env.tree.text n) (.ofQualifier (w.qualifierAt n)))
      (moves : Moves env n w w') :
      Refused env n w
        (.unresolvedTable (env.tree.text n) (fileNameOf env n) (env.tree.location n)) w'

/-- What has been done once a node has been entered, and what is to be done. -/
structure Admitted (env : Env) (n : NodeId) (w : Walk) (plan : Plan env.tree n) (w' : Walk) :
    Prop where
  enters : Enters env n w w'
  course : Course env n w'.index w.frame plan.leave [] w'.frame plan.steps
  record : env.tree.kind n = .record →
    ¬ Missing env w (env.tree.text n) (.ofQualifier (w.qualifierAt n)) ∧
      ∃ v, Moves env n w v ∧ Refer env n v (.record (w.qualifierAt n)) w'
  taken : (env.tree.kind n).consumesQualifier → w'.Untold n

variable (env : Env) (n : NodeId) {w : Walk}

section Admitted

variable {env n} {w' : Walk} {steps : List (Step env.tree n)}

/-- A node that does not ask how it is used. -/
theorem Admitted.of_runs {plan : Plan env.tree n} (runs : Runs env n w w')
    (course : Course env n w'.index w.frame plan.leave [] w'.frame plan.steps)
    (hasks : (env.tree.kind n).consumesQualifier = false) : Admitted env n w plan w' := by
  refine ⟨.plain runs, course, fun hrecord => ?_, fun h => ?_⟩
  · simp [hrecord] at hasks
  · rw [hasks] at h
    cases h

/-- A node at which nothing is opened and nothing is left to do at the end. -/
theorem Admitted.of_enters (enters : Enters env n w w') (frame : w'.frame = w.frame)
    (hkind : (env.tree.kind n).isOrdinary) (bare : BareSteps steps)
    (record : env.tree.kind n = .record →
      ¬ Missing env w (env.tree.text n) (.ofQualifier (w.qualifierAt n)) ∧
        ∃ v, Moves env n w v ∧ Refer env n v (.record (w.qualifierAt n)) w')
    (taken : (env.tree.kind n).consumesQualifier → w'.Untold n) :
    Admitted env n w { steps } w' := by
  refine ⟨enters, ?_, record, taken⟩
  rw [frame]
  exact course_plain hkind bare (by simp) fun done _ => .nil _

theorem Admitted.of_moves (moves : Moves env n w w') (hkind : (env.tree.kind n).isOrdinary)
    (hasks : (env.tree.kind n).consumesQualifier = false) (bare : BareSteps steps) :
    Admitted env n w { steps } w' := by
  refine .of_runs moves.runs ?_ hasks
  rw [moves.frame]
  exact course_plain hkind bare (by simp) fun done _ => .nil _

/-- A node that has taken its qualifier. -/
theorem Admitted.of_taken (moves : Moves env n w w') (untold : w'.Untold n)
    (hkind : (env.tree.kind n).isOrdinary) (hrecord : env.tree.kind n ≠ .record)
    (bare : BareSteps steps) : Admitted env n w { steps } w' :=
  .of_enters (.plain moves.runs) moves.frame hkind bare (fun h => absurd h hrecord) fun _ => untold

theorem bareSteps_nil : BareSteps ([] : List (Step env.tree n)) :=
  ⟨by simp, List.nodup_nil⟩

end Admitted

/-! ### Qualifiers and hints -/

theorem Sound.qualifierAt_ne (hs : Sound w) : w.qualifierAt n ≠ .schemaTableSymbol := by
  unfold qualifierAt
  cases h : w.qualifiers.find? n with
  | none => simp
  | some q =>
    rintro rfl
    exact hs.qualifiers n h

theorem ends_takeQualifier : Ends (takeQualifier env n) w Never fun q w' =>
    q = w.qualifierAt n ∧ Moves env n w w' ∧ w'.Untold n ∧
      w'.index = { w.index with defaulted := w'.index.defaulted } ∧ w'.hints = w.hints := by
  have untold := w.qualifiers.find?_erase_self n
  have taken : Move env n w { w with qualifiers := w.qualifiers.erase n } := .takeQualifier
  unfold takeQualifier qualifierAt
  rw [ends_bind, ends_get]
  dsimp only [SideTable.take]
  rw [ends_bind, ends_modify]
  cases w.qualifiers.find? n with
  | some q => exact ⟨rfl, .single taken, untold, rfl, rfl⟩
  | none =>
    dsimp only
    split
    · rw [ends_bind, ends_modifyIndex, ends_pure]
      exact ⟨rfl, .tail (.single taken) (.index (.defaulted n)), untold, rfl, rfl⟩
    · exact ⟨rfl, .single taken, untold, rfl, rfl⟩

theorem ends_takeHint : Ends (takeHint n) w Never fun h w' =>
    h = w.hintAt n ∧ Moves env n w w' ∧ w'.index = w.index :=
  ⟨rfl, .single .takeHint, rfl⟩

/-! ### Records -/

theorem ends_bindRecord (hs : Sound w) {buffer : SymbolId} (offers : w.Offers buffer)
    (q : Qualifier) :
    Ends (bindRecord buffer q) w Never fun bound w' => Moves env n w w' ∧
      (bound.isSome ↔ q ∈ bindingUses) ∧ ∀ id, bound = some id → w'.Binds id buffer := by
  have some_ : ∀ {m : WalkM BufferScopeId}, q ∈ bindingUses →
      Ends m w Never (fun id w' => Moves env n w w' ∧ w'.Binds id buffer) →
      Ends (some <$> m) w Never fun bound w' => Moves env n w w' ∧
        (bound.isSome ↔ q ∈ bindingUses) ∧ ∀ id, bound = some id → w'.Binds id buffer := by
    intro m hq h
    rw [ends_map]
    refine h.imp fun id w' h => ⟨h.1, by simp [hq], fun id' hid => ?_⟩
    cases hid
    exact h.2
  cases q with
  | init | ref | refUp | updating => exact some_ (by decide) (ends_bindReference env n hs offers)
  | initWeak => exact some_ (by decide) (ends_bindWeakly env n hs offers)
  | _ => exact ⟨.refl, by decide, by simp⟩

theorem ends_bufferStore {buffer : SymbolId} {t : TableId} {table : Table}
    {Q : Store → Walk → Prop} {E : Fault → Walk → Prop}
    (h : w.index.bufferTable? buffer = some t) (htable : w.index.tables.get? t = some table) :
    Ends (bufferStore buffer) w E Q ↔ Q table.kind.store w := by
  unfold bufferStore
  rw [ends_bind, ends_theIndex, h, ends_bind, ends_tableAt htable, ends_pure]

theorem missing_iff {w' : Walk} {name : String} {lookup : RecordLookup} (hs : Sound w)
    (moves : Moves env n w w') (hscopes : w'.index.scopes = w.index.scopes) :
    Missing env w' name lookup ↔ Missing env w name lookup := by
  have hfind : ∀ s space, w'.index.findIn? s space name = w.index.findIn? s space name := by
    intro s space
    rw [findIn?, hscopes, findIn?]
  have hscope := moves.scope
  have hchain : w'.index.scopeChain w.scope = w.index.scopeChain w.scope :=
    moves.runs.extends.scopeChain hs.coherent.scopeTree _ hs.scope_lt
  cases lookup with
  | buffer => simp only [Missing, hscope, hchain, hfind]
  | tempTable => simp only [Missing, hfind]
  | schemaTable => exact Iff.rfl

theorem Sound.exists_table (hs : Sound w) {buffer : SymbolId} {t : TableId}
    (h : w.index.bufferTable? buffer = some t) : ∃ table, w.index.tables.get? t = some table := by
  obtain ⟨symbol, b, hsymbol, hkind, rfl⟩ := bufferTable?_eq_some.1 h
  have ok := (hs.coherent.symbols hsymbol).kind
  rw [hkind] at ok
  exact Arena.exists_get? ok.1

theorem ends_enterRecord (hs : Sound w) (hkind : env.tree.kind n = .record) :
    Ends (enterRecord env n) w (Refused env n w) (Admitted env n w) := by
  unfold enterRecord
  rw [ends_bind]
  refine (ends_takeQualifier env n).imp ?_
  rintro q w₁ ⟨rfl, moves₁, untold, hindex, -⟩
  have hscopes : w₁.index.scopes = w.index.scopes := by rw [hindex]
  have hs₁ := moves₁.runs.sound hs
  rw [ends_bind]
  refine (ends_findBuffer? env n hs₁ _ _).imp ?_
  rintro found w₂ ⟨moves₂, hfound, hmissing⟩
  have moves : Moves env n w w₂ := moves₁.trans moves₂
  have hs₂ := moves.runs.sound hs
  cases found with
  | none =>
    exact .unresolved hkind ((missing_iff env n hs moves₁ hscopes).1 (hmissing.1 rfl)) moves
  | some buffer =>
    dsimp only
    rw [ends_bind]
    refine (ends_bindRecord env n hs₂ (hfound buffer rfl) _).imp ?_
    rintro bufferScope w₃ ⟨moves₃, binds, bound⟩
    have hs₃ := moves₃.runs.sound hs₂
    have moves' : Moves env n w w₃ := moves.trans moves₃
    have offers := (hfound buffer rfl).moves env n moves₃ hs₂
    obtain ⟨t, ht⟩ := offers.isBuffer
    obtain ⟨table, htable⟩ := hs₃.exists_table ht
    rw [ends_bind, ends_noteReference offers.sees.lt_size, ends_bind,
      ends_bufferStore (by exact (extends_counted _ _ _).bufferTable? ht) (by exact htable)]
    rw [ends_bind, ends_theIndex, ends_bind, ends_annotate, ends_bind, ends_modify, ends_pure]
    have refer : Refer env n w₃ (.record (w.qualifierAt n)) _ :=
      .record bufferScope
        (isAbbreviatedTable (w₃.index.counted buffer (w.qualifierAt n)) buffer (env.tree.text n))
        hkind ht htable offers.sees offers.attached binds bound
    refine .of_enters (.refer moves' ?_ refer) ?_ (by rw [hkind]; rfl) bareSteps_plain ?_
      fun _ => refer.untold (moves₃.runs.untold (moves₂.runs.untold untold))
    · rfl
    · exact refer.frame.trans moves'.frame
    · refine fun _ => ⟨fun missing => ?_, w₃, moves', refer⟩
      have hnone := hmissing.2 ((missing_iff env n hs moves₁ hscopes).2 missing)
      cases hnone

/-! ### Fields -/

theorem ends_storeOf (hs : Sound w) {s : SymbolId} (h : s.val < w.index.symbols.size) :
    Ends (storeOf s) w Never fun _ w' => w' = w := by
  obtain ⟨symbol, hsymbol⟩ := Arena.exists_get? h
  unfold storeOf
  rw [ends_bind, ends_symbolAt hsymbol]
  have ok := (hs.coherent.symbols hsymbol).kind
  cases hkind : symbol.kind with
  | fieldBuffer f =>
    rw [hkind] at ok
    obtain ⟨t, ht⟩ := ok.1
    obtain ⟨table, htable⟩ := hs.exists_table ht
    dsimp only
    rw [ends_map, ends_bufferStore ht htable]
  | _ => rfl

theorem ends_annotateField (hs : Sound w) (hkind : env.tree.kind n = .field) {found : FieldLookup}
    (q : Qualifier) {h : TableHint}
    (leads : w.Leads (env.tree.text n) h found.symbol found.bufferScope) :
    Ends (annotateField n found q) w Never fun _ w' => Refer env n w (.field q h) w' := by
  have hfound := leads.attached.lt_size
  obtain ⟨symbol, hsymbol⟩ := Arena.exists_get? hfound
  unfold annotateField
  rw [ends_bind]
  refine (ends_storeOf hs hfound).imp ?_
  rintro store w₁ hw
  rw [hw, ends_bind, ends_annotate, ends_bind, ends_noteReference (by exact hfound), ends_bind]
  have refer : Refer env n w (.field q h) _ :=
    .field store found.bufferScope (found.unqualified && (store.isSome && store != some .variable))
      found.abbreviated hkind leads
  have hget : (w.index.counted found.symbol q).symbols.get? found.symbol =
      some (symbol.noteReference q) := by
    simp [counted, Arena.get?_update, hsymbol]
  rw [ends_symbolAt hget]
  have hfield : w.index.asFieldBuffer? found.symbol = symbol.asFieldBuffer? := by
    rw [asFieldBuffer?, hsymbol, Option.bind_some]
  simp only [countedField, hfield, Symbol.asFieldBuffer?] at refer
  cases hk : symbol.kind with
  | fieldBuffer f =>
    rw [hk] at refer
    have ok := (hs.coherent.symbols hsymbol).kind
    rw [hk] at ok
    have hlt : f.buffer.val < (w.index.counted found.symbol q).symbols.size :=
      (extends_counted _ _ _).lt_symbols (IsBuffer.lt_size ok.1)
    simp only [Symbol.noteReference, hk]
    rw [ends_noteReference (by exact hlt)]
    exact refer
  | _ =>
    rw [hk] at refer
    simp only [Symbol.noteReference, hk]
    exact refer

theorem ends_addUnresolved {Q : PUnit → Walk → Prop} {E : Fault → Walk → Prop} (hs : Sound w) :
    Ends (addUnresolved n (env.tree.text n)) w E Q ↔ Q ⟨⟩ { w with index := { w.index with
      unresolved := w.index.unresolved ++ [missedField env n w] } } := by
  unfold addUnresolved
  rw [ends_bind, ends_currentScope hs, ends_modifyIndex]
  exact Iff.rfl

/-- What becomes of a field. -/
inductive FieldOutcome where
  /-- It means what a screen shows, and is not looked up. -/
  | input
  /-- It stands for something. -/
  | found
  /-- The table that a hint points to does not have it, and need not have it. -/
  | tolerated
  /-- It is noted as unresolved. -/
  | missing
deriving DecidableEq

/-- The table that a hint points to does not have the field. -/
def Lacks (env : Env) (n : NodeId) (w : Walk) (h : TableHint) : Prop :=
  ∃ b, w.hinted? h = some b ∧ w.index.bufferField? b (Text.lastSegment (env.tree.text n)) = none

/-- The lookup of a field: what is known of its outcome. -/
inductive Seeks (env : Env) (n : NodeId) (q : Qualifier) (h : TableHint) (w w' : Walk) :
    FieldOutcome → Prop
  | found {v : Walk} (moves : Moves env n w v) (refer : Refer env n v (.field q h) w') :
      Seeks env n q h w w' .found
  | tolerated (lacks : Lacks env n w h) (tolerant : isTolerant env n = true) (same : w' = w) :
      Seeks env n q h w w' .tolerated
  | missing {v : Walk} (moves : Moves env n w v) (miss : Miss env n v h w') :
      Seeks env n q h w w' .missing

theorem ends_missingField (hs : Sound w) (hkind : env.tree.kind n = .field) {q : Qualifier}
    {h : TableHint} {buffer : SymbolId} (hinted : w.hinted? h = some buffer)
    (hbuffer : w.index.IsBuffer buffer)
    (lacks : w.index.bufferField? buffer (Text.lastSegment (env.tree.text n)) = none) :
    Ends (missingField env n buffer (env.tree.text n)) w Never fun _ w' =>
      ∃ outcome, Seeks env n q h w w' outcome := by
  obtain ⟨symbol, hsymbol⟩ := Arena.exists_get? hbuffer.lt_size
  unfold missingField
  cases htolerant : isTolerant env n with
  | true => exact ⟨_, .tolerated ⟨buffer, hinted, lacks⟩ htolerant rfl⟩
  | false =>
    simp only [Bool.not_false, if_true]
    rw [ends_bind, ends_symbolAt hsymbol, ends_bind, ends_report,
      ends_addUnresolved env n (hs.noted w.index.unresolved _)]
    exact ⟨_, .missing .refl (.inTable hkind hinted hsymbol htolerant)⟩

theorem ends_defineInline (hs : Sound w) (hkind : env.tree.kind n = .field) :
    Ends (defineInline env n) w Never fun _ w' => Moves env n w w' ∧
      w.index.Defines w'.index := by
  unfold defineInline
  rw [ends_bind, ends_currentScope hs, ends_bind]
  have initial : w.index.Initial (.variable {}) := fun _ => rfl
  refine (ends_createSymbol env n _ hs.scope_lt initial (by simp [hkind]) fun _ => rfl).imp ?_
  rintro s w₁ ⟨moves, hget, rfl, defines⟩
  have closed : w.index.symbols.next ∉ w₁.openDefinitions :=
    (Moves.openDefinitions env n moves).symm ▸ hs.next_notMem
  refine (ends_attach env n (moves.runs.sound hs) ⟨w.scope, .variable, _, hget, rfl, rfl⟩
    closed).imp ?_
  rintro _ w₂ ⟨moves', -, defines'⟩
  exact ⟨moves.trans moves', defines.trans defines'⟩

theorem Sound.hinted? (hs : Sound w) {h : TableHint} {b : SymbolId} (hb : w.hinted? h = some b) :
    w.index.IsBuffer b ∧ w.index.IsAttached b := by
  cases h with
  | any => simp [Walk.hinted?] at hb
  | last => exact hs.lastTable b hb
  | previous => exact hs.previousTable b hb

theorem ends_hintedBuffer? (h : TableHint) {E : Fault → Walk → Prop}
    {Q : Option SymbolId → Walk → Prop} : Ends (hintedBuffer? h) w E Q ↔ Q (w.hinted? h) w := by
  cases h <;> rfl

theorem Moves.hinted? {w' : Walk} (moves : Moves env n w w') (h : TableHint) :
    w'.hinted? h = w.hinted? h :=
  Runs.hinted? moves.runs h

/-- A field of the buffer that a hint points to. -/
theorem Sound.leads_hinted (hs : Sound w) {name : String} {h : TableHint} {b s : SymbolId}
    {f : FieldId} (hb : w.hinted? h = some b) (hf : w.index.asFieldBuffer? s = some ⟨b, f⟩)
    (carries : w.index.Carries b f) : w.Leads name h s none where
  reaches := by
    unfold Reaches
    rw [hb]
    exact ⟨f, hf⟩
  attached := hs.coherent.attached_of_asFieldBuffer? hf
  offered f' hf' := by
    rw [hf] at hf'
    cases hf'
    exact .inl (hs.hinted? hb).2
  bound := by simp
  carried f' hf' := by
    rw [hf] at hf'
    cases hf'
    exact carries

theorem ends_resolveField (hs : Sound w) (hkind : env.tree.kind n = .field) (q : Qualifier)
    (h : TableHint) :
    Ends (resolveField env n q h) w Never fun _ w' => ∃ outcome, Seeks env n q h w w' outcome := by
  unfold resolveField
  dsimp only
  rw [ends_bind, ends_hintedBuffer?]
  cases hb : w.hinted? h with
  | some buffer =>
    dsimp only
    rw [ends_bind]
    refine (ends_fieldOfBuffer? env n hs _).imp ?_
    rintro found w₁ ⟨moves, hfound, hnone⟩
    cases found with
    | none =>
      obtain ⟨hw, lacks⟩ := hnone rfl
      rw [hw]
      exact ends_missingField env n hs hkind hb (hs.hinted? hb).1 lacks
    | some found =>
      have hs₁ := moves.runs.sound hs
      obtain ⟨hbound, f, hf, carries⟩ := hfound found rfl
      have leads : w₁.Leads (env.tree.text n) h found.symbol none :=
        hs₁.leads_hinted ((Moves.hinted? env n moves h).trans hb) hf carries
      rw [← hbound] at leads
      exact (ends_annotateField env n hs₁ hkind q leads).imp fun _ _ refer =>
        ⟨_, .found moves refer⟩
  | none =>
    dsimp only
    rw [ends_bind]
    refine (ends_lookupField? env n hs _ _).imp ?_
    rintro found w₁ ⟨moves, hfound⟩
    have hs₁ := moves.runs.sound hs
    have unhinted : w₁.hinted? h = none := (Moves.hinted? env n moves h).trans hb
    cases found with
    | none =>
      rw [ends_addUnresolved env n hs₁]
      exact ⟨_, .missing moves (.anywhere hkind unhinted)⟩
    | some found =>
      exact (ends_annotateField env n hs₁ hkind q ((hfound found rfl).unhinted unhinted)).imp
        fun _ _ refer => ⟨_, .found moves refer⟩

/-- What becomes of field `n` when it is entered in state `w`. -/
inductive Resolves (env : Env) (n : NodeId) (w w' : Walk) : FieldOutcome → Prop
  | input (keyword : env.tree.hasKeyword n .input = true) (moves : Moves env n w w') :
      Resolves env n w w' .input
  | found {v : Walk} (keyword : env.tree.hasKeyword n .input = false) (moves : Moves env n w v)
      (refer : Refer env n v (.field (w.qualifierAt n) (w.hintAt n)) w') :
      Resolves env n w w' .found
  | tolerated (keyword : env.tree.hasKeyword n .input = false) (lacks : Lacks env n w (w.hintAt n))
      (tolerant : isTolerant env n = true) (moves : Moves env n w w')
      (diagnostics : w'.index.diagnostics = w.index.diagnostics) : Resolves env n w w' .tolerated
  | missing {v : Walk} (keyword : env.tree.hasKeyword n .input = false) (moves : Moves env n w v)
      (miss : Miss env n v (w.hintAt n) w') : Resolves env n w w' .missing

theorem Seeks.untold {q : Qualifier} {h : TableHint} {w' : Walk} {outcome : FieldOutcome}
    (seeks : Seeks env n q h w w' outcome) (untold : w.Untold n) : w'.Untold n := by
  cases seeks with
  | found moves refer => exact refer.untold (moves.runs.untold untold)
  | tolerated _ _ same => exact same ▸ untold
  | missing moves miss => exact miss.untold (moves.runs.untold untold)

/-- What a table lacks at the lookup it lacked when the field was entered. -/
theorem Lacks.before {v : Walk} {h : TableHint} (hs : Sound w) (moves : Moves env n w v)
    (tables : v.index.tables = w.index.tables) (fields : v.index.fields = w.index.fields)
    (lacks : Lacks env n v h) : Lacks env n w h := by
  obtain ⟨b, hb, hnone⟩ := lacks
  rw [Moves.hinted? env n moves] at hb
  obtain ⟨t, ht⟩ := (hs.hinted? hb).1
  exact ⟨b, hb, (moves.runs.extends.bufferField?_eq ht tables fields _).symm.trans hnone⟩

/-- A field is looked up as it has been told, after it has taken what it was told and has defined
its variable, if it defines one. -/
theorem Seeks.resolves {v w' : Walk} {outcome : FieldOutcome} (hs : Sound w)
    (keyword : env.tree.hasKeyword n .input = false) (moves : Moves env n w v)
    (tables : v.index.tables = w.index.tables) (fields : v.index.fields = w.index.fields)
    (diagnostics : v.index.diagnostics = w.index.diagnostics)
    (seeks : Seeks env n (w.qualifierAt n) (w.hintAt n) v w' outcome) :
    Resolves env n w w' outcome := by
  cases seeks with
  | found moves' refer => exact .found keyword (moves.trans moves') refer
  | tolerated lacks tolerant same =>
    subst same
    exact .tolerated keyword (lacks.before env n hs moves tables fields) tolerant moves diagnostics
  | missing moves' miss => exact .missing keyword (moves.trans moves') miss

theorem ends_enterField_resolves (hs : Sound w) (hkind : env.tree.kind n = .field) :
    Ends (enterField env n) w Never fun plan w' => plan = .plain env.tree n ∧ w'.Untold n ∧
      ∃ outcome, Resolves env n w w' outcome := by
  unfold enterField
  rw [ends_bind]
  refine (ends_takeQualifier env n).imp ?_
  rintro q w₁ ⟨rfl, moves₁, untold₁, hindex, hhints⟩
  rw [ends_bind]
  refine (ends_takeHint env n).imp ?_
  rintro h w₂ ⟨hh, moves₂, hindex₂⟩
  have hhint : h = w.hintAt n := by rw [hh, hintAt, hhints, hintAt]
  have moves : Moves env n w w₂ := moves₁.trans moves₂
  have untold : w₂.Untold n := moves₂.runs.untold untold₁
  have same : w₂.index = { w.index with defaulted := w₂.index.defaulted } := by
    rw [hindex₂, ← hindex]
  have resolved : ∀ {v}, env.tree.hasKeyword n .input = false → Moves env n w₂ v →
      w₂.index.Defines v.index →
      Ends (do resolveField env n (w.qualifierAt n) h; return Plan.plain env.tree n) v Never
        fun plan w' => plan = .plain env.tree n ∧ w'.Untold n ∧
          ∃ outcome, Resolves env n w w' outcome := by
    rintro v keyword moves' defines
    have all : Moves env n w v := moves.trans moves'
    rw [ends_bind]
    refine (ends_resolveField env n (all.runs.sound hs) hkind _ h).imp ?_
    rintro _ w₃ ⟨outcome, seeks⟩
    obtain ⟨symbols, scopes, hv⟩ := defines
    refine ⟨rfl, seeks.untold env n (moves'.runs.untold untold), outcome, ?_⟩
    refine Seeks.resolves env n hs keyword all ?_ ?_ ?_ (hhint ▸ seeks) <;> rw [hv, same]
  split
  · rename_i hnot
    have keyword : env.tree.hasKeyword n .input = false := by simpa using hnot
    split
    · rw [ends_bind]
      refine (ends_defineInline env n (moves.runs.sound hs) hkind).imp ?_
      rintro _ w₃ ⟨inline, defines⟩
      exact resolved keyword inline defines
    · exact resolved keyword .refl (.refl _)
  · rename_i hinput
    exact ⟨rfl, untold, _, .input (by simpa using hinput) moves⟩

theorem ends_enterField (hs : Sound w) (hkind : env.tree.kind n = .field) :
    Ends (enterField env n) w (Refused env n w) (Admitted env n w) := by
  have hordinary : (env.tree.kind n).isOrdinary := by rw [hkind]; rfl
  have hrecord : env.tree.kind n ≠ .record := by simp [hkind]
  refine (ends_enterField_resolves env n hs hkind).imp ?_
  rintro plan w' ⟨rfl, untold, outcome, resolves⟩
  cases resolves with
  | input keyword moves | tolerated keyword lacks tolerant moves =>
    exact .of_taken moves untold hordinary hrecord bareSteps_plain
  | found keyword moves refer =>
    have expects : w.Expects n (.field (w.qualifierAt n) (w.hintAt n)) := ⟨rfl, rfl⟩
    exact .of_enters (.refer moves expects refer) (refer.frame.trans moves.frame) hordinary
      bareSteps_plain (fun h => absurd h hrecord) fun _ => untold
  | missing keyword moves miss =>
    exact .of_enters (.miss moves miss) (miss.frame.trans moves.frame) hordinary
      bareSteps_plain (fun h => absurd h hrecord) fun _ => untold

/-! ### Widgets and members -/

theorem ends_widgetSymbol? (hs : Sound w) : Ends (widgetSymbol? env n) w Never fun found w' =>
    Moves env n w w' ∧ ∀ s, found = some s → w'.index.Sees w'.scope s ∧ w'.index.IsAttached s ∧
      w'.index.asFieldBuffer? s = none := by
  have seen : ∀ space s, w.index.resolve? w.scope space (env.tree.text n) = some s →
      w.index.Sees w.scope s ∧ w.index.IsAttached s ∧ w.index.asFieldBuffer? s = none := by
    intro space s h
    obtain ⟨sees, attached, o, names⟩ := hs.coherent.resolve? h
    exact ⟨sees, attached, names.asFieldBuffer?⟩
  unfold widgetSymbol?
  dsimp only
  rw [ends_bind, ends_theIndex, ends_bind, ends_currentScope hs]
  split
  · split
    · rename_i buffer hbuffer
      refine ⟨.refl, ?_⟩
      rintro s ⟨⟩
      rcases Option.or_eq_some_iff.1 hbuffer with h | ⟨-, h⟩
      · exact seen _ _ h
      · have names := hs.coherent.names_of_findIn? h
        exact ⟨hs.coherent.sees_of_owner_root hs.scope_lt names.owner?,
          hs.coherent.attached_of_findIn? h, names.asFieldBuffer?⟩
    · rw [ends_bind, ends_report]
      exact ⟨.single (.index (.report _ nofun nofun nofun)), by simp⟩
  · split
    · exact ⟨.refl, fun s h => seen _ s h⟩
    · split
      · exact ⟨.refl, fun s h => seen _ s h⟩
      · exact ⟨.refl, by simp⟩

theorem ends_enterWidgetName (hs : Sound w) (hkind : env.tree.kind n = .widgetName) :
    Ends (enterWidgetName env n) w (Refused env n w) (Admitted env n w) := by
  have hordinary : (env.tree.kind n).isOrdinary := by rw [hkind]; rfl
  have hrecord : env.tree.kind n ≠ .record := by simp [hkind]
  unfold enterWidgetName
  rw [ends_bind]
  refine (ends_widgetSymbol? env n hs).imp ?_
  rintro found w₁ ⟨moves, hfound⟩
  cases found with
  | none => exact .of_moves moves hordinary (by simp [hkind]) bareSteps_nil
  | some s =>
    obtain ⟨sees, attached, plain⟩ := hfound s rfl
    dsimp only
    rw [ends_bind, ends_noteReference sees.lt_size, ends_bind, ends_annotate, ends_pure]
    have refer : Refer env n w₁ .widget _ := .widget hkind sees attached plain
    have expects : w.Expects n .widget := trivial
    exact .of_enters (.refer moves expects refer) (refer.frame.trans moves.frame) hordinary
      bareSteps_nil (fun h => absurd h hrecord) (by simp [hkind])

theorem memberNode?_eq_some {cs : List (env.tree.Child n)} {m : NodeId}
    (h : memberNode? env n cs = some m) :
    m ∈ env.tree.children n ∧ env.tree.kind m = .identifier := by
  cases cs with
  | nil => simp [memberNode?] at h
  | cons c cs =>
    simp only [memberNode?, Option.ite_none_right_eq_some, Option.some.injEq] at h
    obtain ⟨hkind, rfl⟩ := h
    exact ⟨c.property, hkind⟩

theorem ends_referToMember (hs : Sound w) (hkind : env.tree.kind n = .widgetAttribute)
    {m : NodeId} (child : m ∈ env.tree.children n) (identifier : env.tree.kind m = .identifier)
    (q : Qualifier) :
    Ends (referToMember env m q) w Never fun _ w' => w' = w ∨ Refer env n w (.member m q) w' := by
  unfold referToMember
  rw [ends_bind, ends_theIndex, ends_bind, ends_currentScope hs]
  cases hfind : w.index.resolveVariable? w.scope (env.tree.text m) with
  | none => exact .inl rfl
  | some s =>
    obtain ⟨sees, attached, o, names⟩ := hs.coherent.resolve? hfind
    dsimp only
    rw [ends_bind, ends_noteReference sees.lt_size, ends_annotate]
    exact .inr (.member hkind child identifier sees attached names.asFieldBuffer?)

theorem ends_enterWidgetAttribute (hs : Sound w)
    (hkind : env.tree.kind n = .widgetAttribute) :
    Ends (enterWidgetAttribute env n) w (Refused env n w) (Admitted env n w) := by
  have hordinary : (env.tree.kind n).isOrdinary := by rw [hkind]; rfl
  have hrecord : env.tree.kind n ≠ .record := by simp [hkind]
  have once := nodup_childList env.tree n
  unfold enterWidgetAttribute
  rw [ends_bind]
  refine (ends_takeQualifier env n).imp ?_
  rintro q w₁ ⟨rfl, moves, untold, -⟩
  have hs₁ := moves.runs.sound hs
  cases hchildren : env.tree.childList n with
  | nil => exact .of_taken moves untold hordinary hrecord bareSteps_nil
  | cons target rest =>
    rw [hchildren, List.map_cons, List.nodup_cons] at once
    have bare : BareSteps (rest.map Step.plain) :=
      bareSteps_map (fun _ => rfl) (fun _ => ⟨rfl, rfl, rfl, by simp [Step.plain]⟩) once.2
    dsimp only
    rw [ends_bind, ends_theIndex]
    split
    · cases hmember : memberNode? env n rest with
      | none => exact .of_taken moves untold hordinary hrecord bare
      | some m =>
        obtain ⟨child, identifier⟩ := memberNode?_eq_some env n hmember
        dsimp only
        rw [ends_bind]
        refine (ends_referToMember env n hs₁ hkind child identifier _).imp ?_
        rintro _ w₂ (hw | refer)
        · rw [hw]
          exact .of_taken moves untold hordinary hrecord bare
        · have expects : w.Expects n (.member m (w.qualifierAt n)) := rfl
          exact .of_enters (.refer moves expects refer) (refer.frame.trans moves.frame) hordinary
            bare (fun h => absurd h hrecord) fun _ => refer.untold untold
    · refine .of_taken moves untold hordinary hrecord
        (bareSteps_cons ⟨rfl, rfl, rfl, by simp⟩ ?_ bare)
      simpa [Step.plain] using once.1

end AblResolve.Walk
