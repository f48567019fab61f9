import AblResolve.Proofs.DeedsOfOperations
import AblResolve.Walk.Visit
/-!
What entering a node does, and what the actions of its plan do. A plan owes the symbol that was made
when the node was entered, unless that has been attached at once: one action of the plan attaches it
or makes it a parameter. Parameters join lists only at the end of the nodes that stand for them.
-/
namespace AblResolve.Walk

open UnitIndex

variable {α β : Type} {env : Env} {n : NodeId}

/-! ### What plans owe -/

/-- The pending symbols that an action attaches or makes parameters. -/
def Action.owes : Action → List SymbolId
  | .attach s | .addParameter s _ => [s]
  | _ => []

/-- Actions that do no deed. -/
def Action.isIdle : Action → Bool
  | .attach _ | .addParameter .. | .closeEvent _ | .defineBuffer .. | .addBufferParameter ..
  | .addTableParameter .. => false
  | _ => true

/-- Actions that do nothing else than attach a symbol, if that. -/
def Action.isPlain : Action → Bool
  | .attach _ => true
  | a => a.isIdle

/-- What one step owes. -/
def Step.owes {t : ParseTree} (s : Step t n) : List SymbolId :=
  (s.before ++ s.after).flatMap Action.owes

/-- What the steps of a plan and its end owe. -/
def owed {t : ParseTree} (steps : List (Step t n)) (leave : List Action) : List SymbolId :=
  steps.flatMap Step.owes ++ leave.flatMap Action.owes

/-- A step that does no deed. -/
def Step.Idle {t : ParseTree} (s : Step t n) : Prop := ∀ a ∈ s.before ++ s.after, a.isIdle

theorem Action.owes_of_isIdle {a : Action} (h : a.isIdle) : a.owes = [] := by
  cases a <;> simp_all [Action.isIdle, Action.owes]

theorem Action.isPlain_of_isIdle {a : Action} (h : a.isIdle) : a.isPlain := by
  cases a <;> simp_all [Action.isIdle, Action.isPlain]

section Idle

variable {t : ParseTree} {steps : List (Step t n)} {leave : List Action}

theorem Step.Idle.owes {s : Step t n} (h : s.Idle) : s.owes = [] :=
  List.flatMap_eq_nil_iff.2 fun a ha => Action.owes_of_isIdle (h a ha)

theorem Step.Idle.told (c : t.Child n) (q : Option Qualifier) (hint : Option TableHint) :
    ({ child := c, qualifier := q, hint } : Step t n).Idle := by
  simp [Step.Idle]

theorem Step.Idle.guard {s : Step t n} (h : s.Idle) (undo : List Action) : (s.guard undo).Idle := h

theorem idle_map {f : t.Child n → Step t n} {cs : List (t.Child n)} (h : ∀ c, (f c).Idle) :
    ∀ s ∈ cs.map f, s.Idle := by
  intro s hs
  obtain ⟨c, -, rfl⟩ := List.mem_map.1 hs
  exact h c

theorem idle_guard (h : ∀ s ∈ steps, s.Idle) (undo : List Action) :
    ∀ s ∈ steps.map (Step.guard undo), s.Idle := by
  intro s hs
  obtain ⟨s', hs', rfl⟩ := List.mem_map.1 hs
  exact (h s' hs').guard undo

theorem idle_plainSteps : ∀ s ∈ plainSteps t n, s.Idle := idle_map fun c => .told c none none

theorem idle_qualifyingSteps (kind : NodeKind) (q : Qualifier) :
    ∀ s ∈ qualifyingSteps t n kind q, s.Idle := idle_map fun c => .told c _ none

theorem idle_qualifiedSteps (q : Qualifier) : ∀ s ∈ qualifiedSteps t n q, s.Idle :=
  idle_map fun c => .told c _ none

theorem idle_firstSteps (kind : NodeKind) (q : Qualifier) : ∀ s ∈ firstSteps t n kind q, s.Idle :=
  idle_map fun c => .told c _ none

theorem idle_onlySteps (kind : NodeKind) (q : Qualifier) : ∀ s ∈ onlySteps t n kind q, s.Idle :=
  idle_map fun c => .told c _ none

theorem idle_operandSteps (first rest : Qualifier) : ∀ s ∈ operandSteps t n first rest, s.Idle := by
  unfold operandSteps
  generalize t.childList n = cs
  induction cs generalizing first with
  | nil => simp [operandSteps.go]
  | cons c cs ih =>
    intro s hs
    unfold operandSteps.go at hs
    split at hs
    · rcases List.mem_cons.1 hs with rfl | hs
      · exact .told c _ none
      · exact ih rest s hs
    · rcases List.mem_cons.1 hs with rfl | hs
      · exact .told c none none
      · exact ih first s hs

theorem idle_relationSteps (h : TableHint) (cs : List (t.Child n)) :
    ∀ s ∈ relationSteps t n h cs, s.Idle := by
  induction cs generalizing h with
  | nil => simp [relationSteps]
  | cons c cs ih =>
    intro s hs
    unfold relationSteps at hs
    split at hs
    · rcases List.mem_cons.1 hs with rfl | hs
      · exact .told c _ _
      · exact ih _ s hs
    · rcases List.mem_cons.1 hs with rfl | hs
      · exact .told c none none
      · exact ih h s hs

/-- In a list without repetition, one element is singled out once. -/
theorem flatMap_single {l : List α} [DecidableEq α] (nodup : l.Nodup) {a : α} (mem : a ∈ l)
    (bs : List β) : (l.flatMap fun c => if a = c then bs else []) = bs := by
  obtain ⟨front, back, rfl⟩ := List.append_of_mem mem
  have apart : a ∉ front ∧ a ∉ back := by
    simp only [List.nodup_append, List.nodup_cons, List.mem_cons] at nodup
    exact ⟨fun h => nodup.2.2 a h a (.inl rfl) rfl, nodup.2.1.1⟩
  have none : ∀ {cs : List α}, a ∉ cs → (cs.flatMap fun c => if a = c then bs else []) = [] := by
    intro cs h
    refine List.flatMap_eq_nil_iff.2 fun c hc => if_neg ?_
    rintro rfl
    exact h hc
  rw [List.flatMap_append, List.flatMap_cons, none apart.1, none apart.2, if_pos rfl,
    List.nil_append, List.append_nil]

theorem owed_of_idle (h : ∀ s ∈ steps, s.Idle) (leave : List Action) :
    owed steps leave = leave.flatMap Action.owes := by
  rw [owed, List.flatMap_eq_nil_iff.2 fun s hs => (h s hs).owes, List.nil_append]

end Idle

/-! ### What is done when a node is entered -/

/-- The node stands for a parameter. That of a table is named by a record. -/
def StandsForParameter (t : ParseTree) (n : NodeId) : Prop :=
  match t.kind n with
  | .defineParameter | .functionParameter | .bufferParameter => True
  | .tableParameter => (t.childOfKind? n .record).isSome
  | _ => False

/-- The kinds of nodes that may stand for a parameter. -/
def mayStand : NodeKind → Bool
  | .defineParameter | .functionParameter | .bufferParameter | .tableParameter => true
  | _ => false

/-- What entering a node does, and what its plan owes then. -/
inductive Entering (env : Env) (n : NodeId) : List Deed → List SymbolId → Prop
  | nothing : Entering env n [] []
  /-- A definition is opened. -/
  | opens (s : SymbolId) {space : Namespace}
      (parameter : StandsForParameter env.tree n → space = .variable) :
      Entering env n [.make s space] [s]
  /-- Something is defined at once. -/
  | defines (s : SymbolId) (space : Namespace) : Entering env n [.make s space, .attach s] []
  /-- The signature of an event is read from now on. -/
  | event (kind : env.tree.kind n = .defineEvent) (s : SymbolId) :
      Entering env n [.make s .event, .turn (some s)] [s]
  | announces (kind : env.tree.kind n = .functionStatement) (key : String) (s : SymbolId) :
      Entering env n [.make s .routine, .attach s, .announce key s] []
  | function (kind : env.tree.kind n = .functionStatement) (key : String) (s : SymbolId) :
      Entering env n [.take key, .make s .routine, .attach s] []
  | resumes (kind : env.tree.kind n = .functionStatement) (key : String) (s : SymbolId) :
      Entering env n [.take key, .relocate s n] []
  /-- A reference may load a table. -/
  | refers (kind : env.tree.kind n = .record ∨ env.tree.kind n = .field) (e : Catalog.Entry) :
      Entering env n [.load e] []
  /-- A variable is defined where it is first used. -/
  | inline (kind : env.tree.kind n = .field) (s : SymbolId) {ds : List Deed}
      (loading : Loading ds) : Entering env n (.make s .variable :: .attach s :: ds) []

theorem not_standsForParameter {t : ParseTree} (h : mayStand (t.kind n) = false) :
    ¬ StandsForParameter t n := by
  unfold StandsForParameter
  split <;> simp_all [mayStand]

/-- What is done at the end of a node. -/
inductive Leaving (env : Env) (n : NodeId) : List Action → Prop
  | plain {leave : List Action} (plain : ∀ a ∈ leave, a.isPlain)
      (none : ¬ StandsForParameter env.tree n) : Leaving env n leave
  | event (kind : env.tree.kind n = .defineEvent) (outer : Option SymbolId) (s : SymbolId) :
      Leaving env n [.closeEvent outer, .endDefinition s, .attach s]
  | buffer (kind : env.tree.kind n = .defineBuffer) (record : Option NodeId) :
      Leaving env n [.defineBuffer n record]
  | parameter (kind : env.tree.kind n = .defineParameter ∨ env.tree.kind n = .functionParameter)
      (s : SymbolId) : Leaving env n [.endDefinition s, .addParameter s (parameterMode env n)]
  | bufferParameter (kind : env.tree.kind n = .bufferParameter) (record : Option NodeId) :
      Leaving env n [.addBufferParameter n record]
  | tableParameter (kind : env.tree.kind n = .tableParameter) {record : NodeId}
      (first : env.tree.childOfKind? n .record = some record) :
      Leaving env n [.addTableParameter record (parameterMode env n)]

/-- How the visit of a node begins: what entering it does and what its plan is like. -/
structure Begins (env : Env) (n : NodeId) (plan : Plan env.tree n) (ds : List Deed) : Prop where
  entering : Entering env n ds (owed plan.steps plan.leave)
  steps : ∀ s ∈ plan.steps, ∀ a ∈ s.before ++ s.after, a.isPlain
  leaving : Leaving env n plan.leave

/-- A plan that does no deed. -/
theorem Begins.idle {plan : Plan env.tree n} {ds : List Deed} (entering : Entering env n ds [])
    (steps : ∀ s ∈ plan.steps, s.Idle) (leave : ∀ a ∈ plan.leave, a.isIdle)
    (none : ¬ StandsForParameter env.tree n) : Begins env n plan ds where
  entering := by
    rwa [owed_of_idle steps,
      List.flatMap_eq_nil_iff.2 fun a ha => Action.owes_of_isIdle (leave a ha)]
  steps s hs a ha := Action.isPlain_of_isIdle (steps s hs a ha)
  leaving := .plain (fun a ha => Action.isPlain_of_isIdle (leave a ha)) none

/-- What a node may touch when it is entered: its own annotation and those of members that it names.
Only references leave the tables alone. -/
def entering (env : Env) (n : NodeId) : Licence where
  nodes m := m = n ∨ m ∈ env.tree.children n ∧ env.tree.kind m = .identifier
  tables := env.tree.kind n ≠ .record ∧ env.tree.kind n ≠ .field

theorem entering_self : (entering env n).nodes n := .inl rfl

theorem Calmly.clauseTarget {l : Licence} (m : Misplacement) : Calmly l (clauseTarget m) := by
  refine .get fun w => ?_
  cases w.openDefinitions with
  | nil => exact .misplaced m
  | cons s _ => exact .pure s

section Enter

variable (other : ¬ StandsForParameter env.tree n)
include other

/-! ### Phrases and clauses -/

/-- Nothing is done, and the plan does no deed. -/
theorem Begins.quiet {steps : List (Step env.tree n)} (h : ∀ s ∈ steps, s.Idle) :
    Begins env n { steps } [] :=
  .idle .nothing h (by simp) other

/-- The steps are visited inside a scope or block. -/
theorem Begins.inside {steps : List (Step env.tree n)} {ds : List Deed}
    (entering : Entering env n ds []) (h : ∀ s ∈ steps, s.Idle) (undo : List Action) {a : Action}
    (idle : a.isIdle) : Begins env n (.around steps undo [a]) ds :=
  .idle entering (idle_guard h undo) (by simpa [Plan.around] using idle) other

theorem logs_enterBlock (kind : BlockKind) {steps : List (Step env.tree n)}
    (h : ∀ s ∈ steps, s.Idle) :
    Logs env (entering env n) (enterBlock env n kind steps) (Begins env n) :=
  .bind (.openBlock kind entering_self) fun _ => .pure (.inside other .nothing h _ rfl)

theorem begins_blockForPlan : Begins env n (blockForPlan env n) [] := by
  refine .quiet other (idle_map fun c => ?_)
  split
  · simp [Step.Idle, Action.isIdle]
  · exact .told c none none

theorem logs_enterFieldList (q : Qualifier) :
    Logs env (entering env n) (enterFieldList env n q) (Begins env n) := by
  refine .bind .read fun w => .pure (.quiet other (idle_map fun c => ?_))
  split
  · exact .told c _ _
  · exact .told c none none

theorem begins_messagePlan : Begins env n (messagePlan env n) [] := by
  unfold messagePlan
  split
  · exact .quiet other (idle_qualifyingSteps _ _)
  · exact .quiet other idle_plainSteps

theorem begins_handlePlan : Begins env n (handlePlan env n) [] := by
  refine .quiet other (idle_map fun c => ?_)
  split
  · intro a ha
    dsimp only at ha
    split at ha
    · obtain rfl := List.mem_singleton.1 ha
      rfl
    · simp at ha
  · exact .told c none none

theorem logs_enterExpression : Logs env (entering env n) (enterExpression env n) (Begins env n) :=
  .bind (.takeQualifier env n) fun _ => .bind (.remark n fun _ => rfl) fun _ =>
    .pure (.quiet other (idle_qualifiedSteps _))

theorem logs_enterRecordPhrase :
    Logs env (entering env n) (enterRecordPhrase env n) (Begins env n) :=
  .bind (.takeQualifier env n) fun _ => .pure (.quiet other (idle_qualifyingSteps _ _))

theorem logs_enterMemoryFunction :
    Logs env (entering env n) (enterMemoryFunction env n) (Begins env n) :=
  .bind (.takeQualifier env n) fun _ => .bind (.remark n fun _ => rfl) fun _ =>
    .pure (.quiet other (idle_operandSteps _ _))

theorem logs_enterLike : Logs env (entering env n) (enterLike env n) (Begins env n) := by
  refine .bind (.clauseTarget _) fun s => ?_
  cases env.tree.childOfKind? n .field with
  | some source =>
    exact .pure (.idle .nothing (idle_onlySteps _ _) (by simp [Action.isIdle]) other)
  | none => exact .pure (.quiet other idle_plainSteps)

theorem logs_enterReturns : Logs env (entering env n) (enterReturns env n) (Begins env n) := by
  unfold enterReturns
  cases clauseType? env n with
  | none => exact .pure (.quiet other (by simp))
  | some type =>
    refine .bind .currentRoutine fun r => .bind (.updateSymbol r fun s => ?_) fun _ =>
      .pure (.quiet other (by simp))
    cases hk : s.kind <;> simp [Symbol.core, SymbolKind.core, Symbol.asRoutine?, hk]

theorem logs_enterTableLike : Logs env (entering env n) (enterTableLike env n) (Begins env n) := by
  unfold enterTableLike
  cases env.tree.childOfKind? n .record with
  | some record =>
    exact .pure (.idle .nothing (idle_onlySteps _ _) (by simp [Action.isIdle]) other)
  | none => exact .pure (.quiet other idle_plainSteps)

theorem logs_enterUseIndex : Logs env (entering env n) (enterUseIndex env n) (Begins env n) :=
  .bind (.updateOpenTable _) fun _ => .pure (.quiet other (by simp))

section Tables

variable (free : (entering env n).tables)
include free

theorem logs_enterAs : Logs env (entering env n) (enterAs env n) (Begins env n) := by
  refine .bind (.clauseTarget _) fun s => ?_
  cases clauseType? env n with
  | some type =>
    exact .bind (.setDataType free s type.1 type.2) fun _ => .pure (.quiet other (by simp))
  | none => exact .pure (.quiet other (by simp))

theorem logs_enterExtent : Logs env (entering env n) (enterExtent env n) (Begins env n) :=
  .bind (.clauseTarget _) fun s => .bind (.setExtent free s _) fun _ =>
    .pure (.quiet other idle_plainSteps)

theorem logs_enterTableIndex :
    Logs env (entering env n) (enterTableIndex env n) (Begins env n) :=
  .bind (.addIndex free env n) fun _ => .pure (.quiet other (by simp))

theorem logs_enterTable {kind : TableKind} (own : kind ≠ .schema) :
    Logs env (entering env n) (enterTable env n kind) (Begins env n) :=
  (logs_beginTable free entering_self _ own).seq fun s ds hds => .pure (by
    subst hds
    exact .inside other (.defines s _) idle_plainSteps _ rfl)

theorem begins_enterTableField {w w' : Walk} (hs : Sound w) {plan : Plan env.tree n}
    (hok : enterTableField env n w = .ok plan w') :
    ∃ ds, Log env (entering env n) w ds w' ∧ Begins env n plan ds := by
  obtain ⟨p, w₁, hbegin, hrest⟩ := bind_ok.1 hok
  cases hrest
  exact ⟨[], .calm (beginField_calm hs free entering_self hbegin),
    .inside other .nothing idle_plainSteps _ rfl⟩

end Tables

/-! ### References -/

omit other in
theorem Calmly.bindRecord {l : Licence} (buffer : SymbolId) (q : Qualifier) :
    Calmly l (bindRecord buffer q) := by
  cases q with
  | init | ref | refUp | updating => exact .map some (.bindReference buffer)
  | initWeak => exact .map some (.bindWeakly buffer)
  | _ => exact .pure none

omit other in
theorem Calmly.bufferStore {l : Licence} (buffer : SymbolId) : Calmly l (bufferStore buffer) := by
  refine .bind .theIndex fun x => ?_
  cases x.bufferTable? buffer with
  | some t => exact .bind (.tableAt t) fun _ => .pure _
  | none => exact .breach _

omit other in
theorem Loading.entering {ds : List Deed} (h : Loading ds)
    (kind : env.tree.kind n = .record ∨ env.tree.kind n = .field) : Entering env n ds [] := by
  cases h with
  | nothing => exact .nothing
  | load e => exact .refers kind e

theorem logs_enterRecord (kind : env.tree.kind n = .record) :
    Logs env (entering env n) (enterRecord env n) (Begins env n) := by
  refine .bind (.takeQualifier env n) fun q => (logs_findBuffer? _ _).seq fun found ds loading => ?_
  cases found with
  | none => exact .throw _
  | some buffer =>
    refine .bind (.bindRecord buffer q) fun _ => .bind (.noteReference buffer q) fun _ => ?_
    refine .bind (.bufferStore buffer) fun _ => .bind .theIndex fun _ => ?_
    refine .bind (.annotate entering_self _) fun _ =>
      .bind (.reframe fun _ => ⟨rfl, rfl, rfl, rfl⟩) fun _ => .pure ?_
    rw [List.append_nil]
    exact .idle (loading.entering (.inl kind)) idle_plainSteps (by simp [Plan.plain]) other

omit other in
/-- The qualifier is taken, and perhaps it is noted that there was none. -/
theorem takeQualifier_ok {w w' : Walk} {q : Qualifier} (hok : takeQualifier env n w = .ok q w') :
    q = w.qualifierAt n ∧ ∃ qualifiers defaulted,
      w' = { w with qualifiers, index := { w.index with defaulted } } := by
  unfold takeQualifier at hok
  obtain ⟨v, w₁, hget, hrest⟩ := bind_ok.1 hok
  cases hget
  obtain ⟨_, w₂, hmodify, hfound⟩ := bind_ok.1 hrest
  cases hmodify
  rw [Walk.qualifierAt]
  cases hq : w.qualifiers.find? n with
  | some q' =>
    rw [hq] at hfound
    cases hfound
    exact ⟨rfl, _, w.index.defaulted, rfl⟩
  | none =>
    rw [hq] at hfound
    dsimp only at hfound
    split at hfound
    · obtain ⟨_, w₃, hnote, hpure⟩ := bind_ok.1 hfound
      cases hnote
      cases hpure
      exact ⟨rfl, _, _, rfl⟩
    · cases hfound
      exact ⟨rfl, _, w.index.defaulted, rfl⟩

omit other in
theorem bufferStore_ok {w w' : Walk} {b : SymbolId} {s : Store} (hok : bufferStore b w = .ok s w') :
    w' = w ∧ s ≠ .variable := by
  unfold bufferStore at hok
  obtain ⟨x, w₁, hx, hrest⟩ := bind_ok.1 hok
  cases hx
  cases ht : w.index.bufferTable? b with
  | none =>
    rw [ht] at hrest
    cases hrest
  | some t =>
    rw [ht] at hrest
    obtain ⟨table, w₂, htable, hpure⟩ := bind_ok.1 hrest
    obtain ⟨-, rfl⟩ := tableAt_ok.1 htable
    cases hpure
    exact ⟨rfl, by cases table.kind <;> simp [TableKind.store]⟩

omit other in
/-- A record that is entered stands for the buffer that is found under its name, which is bound as
the record is used before anything is written. -/
theorem enterRecord_ok {w w' : Walk} {plan : Plan env.tree n}
    (hok : enterRecord env n w = .ok plan w') :
    ∃ b q v w₁, takeQualifier env n w = .ok q v ∧
      findBuffer? env (env.tree.text n) (.ofQualifier q) v = .ok (some b) w₁ ∧
      Calm { nodes := (· = n) } w₁ w' ∧ (w'.notes.get n).symbol = some b ∧
      ∃ bufferScope store u, bindRecord b q w₁ = .ok bufferScope u ∧
        w'.index = u.index.counted b q ∧ w'.notes = u.notes.update n fun a => { a with
          symbol := some b
          qualifier := some q
          store
          bufferScope
          abbreviated := a.abbreviated || isAbbreviatedTable w'.index b (env.tree.text n) } := by
  unfold enterRecord at hok
  obtain ⟨q, v, htake, hrest⟩ := bind_ok.1 hok
  obtain ⟨found, w₂, hfind, hrest⟩ := bind_ok.1 hrest
  cases found with
  | none => cases hrest
  | some b =>
    obtain ⟨bufferScope, w₃, hbind, hrest⟩ := bind_ok.1 hrest
    obtain ⟨_, w₄, hnote, hrest⟩ := bind_ok.1 hrest
    obtain ⟨store, w₅, hstore, hrest⟩ := bind_ok.1 hrest
    have before : Calm { nodes := (· = n) } w₂ w₅ :=
      ((Calmly.bindRecord b _ _ _ _ hbind).trans (Calmly.noteReference b _ _ _ _ hnote)).trans
        (Calmly.bufferStore b _ _ _ hstore)
    obtain ⟨x, w₆, hx, hrest⟩ := bind_ok.1 hrest
    cases hx
    obtain ⟨_, w₇, hannotate, hrest⟩ := bind_ok.1 hrest
    cases hannotate
    obtain ⟨_, w₈, hmodify, hpure⟩ := bind_ok.1 hrest
    cases hmodify
    cases hpure
    obtain ⟨rfl, -⟩ := bufferStore_ok hstore
    obtain rfl := updateSymbol_ok hnote
    refine ⟨b, q, v, w₂, htake, hfind, before.trans ((Calm.annotate rfl).trans
      (.same rfl rfl rfl rfl)), ?_, bufferScope, some store, w₃, hbind, rfl, rfl⟩
    show ((w₃.notes.update n _).get n).symbol = _
    rw [Annotations.get_update_self]

omit other in
theorem storeOf_ok {w w' : Walk} {s : SymbolId} {store : Option Store}
    (hok : storeOf s w = .ok store w') :
    w' = w ∧ ∀ f, w.index.asFieldBuffer? s = some f → store.isSome ∧ store ≠ some .variable := by
  unfold storeOf at hok
  obtain ⟨v, w₁, hv, hrest⟩ := bind_ok.1 hok
  obtain ⟨found, rfl⟩ := symbolAt_ok.1 hv
  have reach : w.index.asFieldBuffer? s = v.asFieldBuffer? := by
    rw [asFieldBuffer?, found, Option.bind_some]
  rw [reach, Symbol.asFieldBuffer?]
  cases hk : v.kind with
  | fieldBuffer f =>
    rw [hk] at hrest
    obtain ⟨st, w₂, hstore, hpure⟩ := bind_ok.1 hrest
    obtain ⟨rfl, other⟩ := bufferStore_ok hstore
    cases hpure
    exact ⟨rfl, fun _ _ => ⟨rfl, by simpa using other⟩⟩
  | _ =>
    rw [hk] at hrest
    cases hrest
    exact ⟨rfl, by simp⟩

omit other in
theorem Calmly.storeOf {l : Licence} (s : SymbolId) : Calmly l (storeOf s) := by
  refine .bind (.symbolAt s) fun v => ?_
  cases v.kind with
  | fieldBuffer f => exact .map some (.bufferStore f.buffer)
  | _ => exact .pure _

omit other in
theorem Calmly.annotateField (found : FieldLookup) (q : Qualifier) :
    Calmly (entering env n) (annotateField n found q) := by
  refine .bind (.storeOf found.symbol) fun store => .bind (.annotate entering_self _) fun _ => ?_
  refine .bind (.noteReference found.symbol q) fun _ => .bind (.symbolAt found.symbol) fun v => ?_
  cases v.kind with
  | fieldBuffer f => exact .noteReference f.buffer q
  | _ => exact .pure _

omit other in
theorem Calmly.addUnresolved {l : Licence} (name : String) : Calmly l (addUnresolved n name) :=
  .bind .currentScope fun _ => .modifyIndex fun w => { Calm.refl l w with }

omit other in
theorem Calmly.missingField {l : Licence} (buffer : SymbolId) (name : String) :
    Calmly l (missingField env n buffer name) :=
  .when (.bind (.symbolAt buffer) fun _ => .bind (.report _) fun _ => .addUnresolved name)

omit other in
theorem logs_resolveField (q : Qualifier) (h : TableHint) :
    Logs env (entering env n) (resolveField env n q h) fun _ => Loading := by
  have hinted : Calmly (entering env n) (hintedBuffer? h) := by
    cases h with
    | any => exact .pure none
    | last => exact .get fun _ => .pure _
    | previous => exact .get fun _ => .pure _
  refine .bind hinted fun buffer => ?_
  cases buffer with
  | some buffer =>
    refine .bind (.fieldOfBuffer? buffer _) fun found => .calm ?_ fun _ => .nothing
    cases found with
    | some found => exact .annotateField found q
    | none => exact .missingField buffer _
  | none =>
    refine (logs_lookupField? _ _).close (fun found => ?_) fun _ _ _ => id
    cases found with
    | some found => exact .annotateField found q
    | none => exact .addUnresolved _

omit other in
theorem logs_defineInline : Logs env (entering env n) (defineInline env n) fun _ ds =>
    ∃ s, ds = [.make s .variable, .attach s] :=
  .bind .currentScope fun scope =>
    (logs_createSymbol (makes_variable {}) entering_self scope _).seq fun s ds hds =>
      (logs_attach s).mono fun _ es hes => ⟨s, by rw [hds, hes]; rfl⟩

theorem logs_enterField (kind : env.tree.kind n = .field) :
    Logs env (entering env n) (enterField env n) (Begins env n) := by
  have plain : ∀ {ds}, Entering env n ds [] → Begins env n (Plan.plain env.tree n) ds :=
    fun entering => .idle entering idle_plainSteps (by simp [Plan.plain]) other
  refine .bind (.takeQualifier env n) fun q => .bind (.takeHint n) fun h => ?_
  split
  · split
    · refine logs_defineInline.seq fun _ ds ⟨s, hds⟩ => (logs_resolveField q h).seq
        fun _ es loading => .pure (plain ?_)
      rw [hds, List.append_nil]
      exact .inline kind s loading
    · refine (logs_resolveField q h).seq fun _ ds loading => .pure (plain ?_)
      rw [List.append_nil]
      exact loading.entering (.inr kind)
  · exact .pure (plain .nothing)

omit other in
theorem Calmly.widgetSymbol? {l : Licence} : Calmly l (widgetSymbol? env n) := by
  refine .bind .theIndex fun x => .bind .currentScope fun scope => ?_
  refine .ite ?_ (.ite (.pure _) (.ite (.pure _) (.pure _)))
  split
  · exact .pure _
  · exact .bind (.report _) fun _ => .pure _

theorem logs_enterWidgetName :
    Logs env (entering env n) (enterWidgetName env n) (Begins env n) := by
  refine .bind .widgetSymbol? fun found => ?_
  cases found with
  | some s =>
    exact .bind (.noteReference s .symbol) fun _ => .bind (.annotate entering_self _) fun _ =>
      .pure (.quiet other (by simp))
  | none => exact .pure (.quiet other (by simp))

omit other in
theorem Calmly.referToMember {l : Licence} {member : NodeId} (licensed : l.nodes member)
    (q : Qualifier) : Calmly l (referToMember env member q) := by
  refine .bind .theIndex fun x => .bind .currentScope fun scope => ?_
  cases x.resolveVariable? scope (env.tree.text member) with
  | some s => exact .bind (.noteReference s q) fun _ => .annotate licensed _
  | none => exact .pure _

theorem logs_enterWidgetAttribute :
    Logs env (entering env n) (enterWidgetAttribute env n) (Begins env n) := by
  refine .bind (.takeQualifier env n) fun q => ?_
  have rest : ∀ cs : List (env.tree.Child n), ∀ s ∈ cs.map Step.plain, s.Idle :=
    fun cs => idle_map fun c => .told c none none
  cases env.tree.childList n with
  | nil => exact .pure (.quiet other (by simp))
  | cons target cs =>
    refine .bind .theIndex fun x => ?_
    split
    · cases hmember : memberNode? env n cs with
      | some member =>
        have licensed : (entering env n).nodes member := by
          rcases cs with _ | ⟨m, ms⟩
          · cases hmember
          · simp only [memberNode?, Option.ite_none_right_eq_some, Option.some.injEq] at hmember
            obtain ⟨hkind, rfl⟩ := hmember
            exact .inr ⟨m.property, hkind⟩
        exact .bind (.referToMember licensed q) fun _ => .pure (.quiet other (rest cs))
      | none => exact .pure (.quiet other (rest cs))
    · refine .pure (.quiet other fun s hs => ?_)
      rcases List.mem_cons.1 hs with rfl | hs
      · exact .told target _ none
      · exact rest cs s hs

/-! ### Routines -/

omit other in
theorem enteringScope (kind : ScopeKind) : Calmly (entering env n) (openScope kind n) :=
  .openScope kind entering_self

theorem logs_enterRoutine (name : String) {kind : RoutineKind} (scopeKind : ScopeKind)
    (own : kind ≠ .program) :
    Logs env (entering env n) (enterRoutine env n name kind scopeKind) (Begins env n) :=
  .bind .currentScope fun outer => .bind (enteringScope scopeKind) fun body =>
    (logs_createRoutine (r := { kind, body }) own rfl outer entering_self name).seq fun s ds hds =>
      .pure (by
        rw [hds, List.append_nil]
        exact .inside other (.defines s _) idle_plainSteps _ rfl)

omit other in
theorem logs_enterFreshFunction (forwardNode : Option NodeId) :
    Logs env (entering env n) (enterFreshFunction env n forwardNode) fun p ds =>
      ds = [.make p.1 .routine, .attach p.1] ∧ p.2 = scopedPlan env n :=
  .bind .currentScope fun outer => .bind (enteringScope .function) fun body =>
    (logs_createRoutine (r := { kind := .function, body, forwardNode }) nofun rfl outer
      entering_self _).seq fun s ds hds => .pure (by simp [hds])

omit other in
theorem logs_takeForward {l : Licence} (key : String) :
    Logs env l (takeForward key) fun _ ds => ds = [.take key] := by
  intro w found w' hok
  obtain ⟨v, w₁, hget, hrest⟩ := bind_ok.1 hok
  cases hget
  obtain ⟨_, w₂, hmodify, hpure⟩ := bind_ok.1 hrest
  cases hmodify
  cases hpure
  exact ⟨_, (Effect.take key).log, rfl⟩

omit other in
theorem logs_enterForwardBody (routine : SymbolId) :
    Logs env (entering env n) (enterForwardBody env n routine) fun plan ds =>
      ds = [.relocate routine n] ∧ plan = scopedPlan env n := by
  refine .bind (.symbolAt routine) fun s => ?_
  cases s.asRoutine? with
  | none => exact .throw _
  | some r =>
    have moves : Logs env (entering env n)
        (updateSymbol routine fun s => { s with definitionNode := some n }) fun _ ds =>
          ds = [.relocate routine n] := by
      intro w _ w' hok
      rw [updateSymbol_ok hok]
      exact ⟨_, (Effect.relocate routine n).log, rfl⟩
    refine moves.seq fun _ ds hds => .bind (.annotate entering_self _) fun _ =>
      .bind (.enterScope r.body entering_self) fun _ => .pure ?_
    exact ⟨by rw [hds, List.append_nil], rfl⟩

theorem logs_enterFunction (kind : env.tree.kind n = .functionStatement) :
    Logs env (entering env n) (enterFunction env n) (Begins env n) := by
  have inside : ∀ {ds}, Entering env n ds [] → Begins env n (scopedPlan env n) ds :=
    fun entering => .inside other entering idle_plainSteps _ rfl
  have fresh : ∀ (key : String) (forwardNode : Option NodeId),
      Logs env (entering env n) (do return (← enterFreshFunction env n forwardNode).2)
        fun plan es => Begins env n plan ([.take key] ++ es) :=
    fun key forwardNode => (logs_enterFreshFunction forwardNode).seq fun p ds ⟨hds, hplan⟩ =>
      .pure (by
        rw [hds, hplan, List.append_nil]
        exact inside (.function kind key p.1))
  unfold enterFunction
  dsimp only
  split
  · refine (logs_enterFreshFunction _).seq fun p ds ⟨hds, hplan⟩ => ?_
    have announces : Logs env (entering env n) (modifyThe Walk fun w => { w with
        forwards := (Text.fold (env.tree.definedName n), p.1) ::
          w.forwards.filter (·.1 ≠ Text.fold (env.tree.definedName n)) }) fun _ es =>
        es = [.announce (Text.fold (env.tree.definedName n)) p.1] := by
      intro w _ w' hok
      cases hok
      exact ⟨_, (Effect.announce _ p.1).log, rfl⟩
    refine announces.seq fun _ es hes => .pure ?_
    rw [hds, hes, hplan, List.append_nil]
    exact inside (.announces kind _ p.1)
  · refine (logs_takeForward _).seq fun found ds hds => ?_
    subst hds
    cases found with
    | none => exact fresh _ none
    | some routine =>
      dsimp only
      split
      · exact .bind (.symbolAt routine) fun _ => fresh _ _
      · refine (logs_enterForwardBody routine).mono fun plan es ⟨hes, hplan⟩ => ?_
        rw [hes, hplan]
        exact inside (.resumes kind _ routine)

theorem logs_enterTrigger : Logs env (entering env n) (enterTrigger env n) (Begins env n) :=
  .bind (enteringScope .trigger) fun _ => .pure (.inside other .nothing idle_plainSteps _ rfl)

theorem logs_enterClass (kind : ScopeKind) :
    Logs env (entering env n) (enterClass env n kind) (Begins env n) := by
  have rest : ∀ (name : String) typeInfo, Logs env (entering env n) (do
      updateScope UnitIndex.rootScope fun s => { s with kind, className := some name, typeInfo }
      annotate n fun a => { a with scope := some UnitIndex.rootScope }
      return Plan.plain env.tree n) (Begins env n) :=
    fun _ _ => .bind (.updateScope _ fun _ => rfl) fun _ => .bind (.annotate entering_self _)
      fun _ => .pure (.quiet other idle_plainSteps)
  unfold enterClass
  dsimp only
  split
  · exact .bind (.report _) fun _ => rest _ _
  · exact rest _ _

/-! ### Definitions -/

/-- A definition is opened, and the last action of the plan but idle ones attaches what it
defines. -/
theorem Begins.definition {steps : List (Step env.tree n)} {leave : List Action} {s : SymbolId}
    {space : Namespace} (h : ∀ step ∈ steps, step.Idle)
    (owes : leave.flatMap Action.owes = [s]) (plain : ∀ a ∈ leave, a.isPlain) :
    Begins env n { steps, leave } [.make s space] where
  entering := by
    rw [owed_of_idle h, owes]
    exact .opens s (absurd · other)
  steps step hstep a ha := Action.isPlain_of_isIdle (h step hstep a ha)
  leaving := .plain plain other

omit other in
theorem logs_opens {kind : SymbolKind} {space : Namespace} (makes : Makes kind space)
    (name : String) {plan : SymbolId → Plan env.tree n}
    (h : ∀ s, Begins env n (plan s) [.make s space]) :
    Logs env (entering env n) (do return plan (← define n name kind)) (Begins env n) :=
  (logs_define makes entering_self name).seq fun s ds hds => .pure (by
    rw [hds, List.append_nil]
    exact h s)

theorem logs_enterVariable : Logs env (entering env n) (enterVariable env n) (Begins env n) :=
  logs_opens (makes_variable _) _ fun s => .definition other (idle_guard idle_plainSteps _) rfl
    (by simp [Action.isPlain, Action.isIdle])

theorem logs_enterBrowse : Logs env (entering env n) (enterBrowse env n) (Begins env n) :=
  logs_opens (makes_browse _) _ fun s => .definition other (idle_guard idle_plainSteps _) rfl
    (by simp [Action.isPlain, Action.isIdle])

theorem logs_enterWidget (kind : WidgetKind) :
    Logs env (entering env n) (enterWidget env n kind) (Begins env n) := by
  refine logs_opens (makes_widget kind) _ fun s =>
    .definition other (idle_guard ?_ _) rfl (by simp [Action.isPlain, Action.isIdle])
  split
  · exact idle_qualifiedSteps _
  · exact idle_plainSteps

theorem logs_enterAggregate : Logs env (entering env n) (enterAggregate env n) (Begins env n) :=
  .bind .currentScope fun scope =>
    (logs_createSymbol (makes_variable _) entering_self scope "").seq fun s ds hds =>
      (logs_attach s).seq fun _ es hes => .pure (by
        rw [hds, hes, List.append_nil]
        exact .idle (.defines s _) idle_plainSteps (by simp [Plan.plain]) other)

/-- A property is attached before its first accessor, or at the end if it has none. -/
theorem logs_enterProperty : Logs env (entering env n) (enterProperty env n) (Begins env n) := by
  have clauses : ∀ (s : SymbolId) (cs : List (env.tree.Child n)), ∀ step ∈ cs.map fun c =>
      ({ child := c, onFailure := [.endDefinition s] } : Step env.tree n), step.Idle :=
    fun s cs => idle_map fun c => by simp [Step.Idle]
  have accessors : ∀ cs : List (env.tree.Child n), ∀ step ∈ cs.map Step.plain, step.Idle :=
    fun cs => idle_map fun c => .told c none none
  refine (logs_define (makes_variable _) entering_self _).seq fun s ds hds => ?_
  subst hds
  dsimp only
  split
  · refine .pure ?_
    rw [List.append_nil]
    exact .definition other (clauses s _) rfl (by simp [Action.isPlain, Action.isIdle])
  · rename_i first rest heq
    refine .pure ?_
    rw [List.append_nil]
    refine ⟨?_, fun step hstep a ha => ?_, .plain (by simp) other⟩
    · rw [owed, List.flatMap_append, List.flatMap_cons,
        List.flatMap_eq_nil_iff.2 fun step hstep => (clauses s _ step hstep).owes,
        List.flatMap_eq_nil_iff.2 fun step hstep => (accessors rest step hstep).owes]
      exact .opens s (absurd · other)
    · rcases List.mem_append.1 hstep with hstep | hstep
      · exact Action.isPlain_of_isIdle (clauses s _ step hstep a ha)
      rcases List.mem_cons.1 hstep with rfl | hstep
      · revert ha
        simp only [List.append_nil, List.mem_cons, List.not_mem_nil, or_false]
        rintro (rfl | rfl) <;> rfl
      · exact Action.isPlain_of_isIdle (accessors rest step hstep a ha)

/-- The variable of a CATCH block is attached after its first AS clause, or at the end if there is
none. -/
theorem logs_enterCatch : Logs env (entering env n) (enterCatch env n) (Begins env n) := by
  refine .bind (enteringScope .catch) fun _ =>
    (logs_define (makes_variable {}) entering_self _).seq fun s ds hds => .pure ?_
  rw [hds, List.append_nil]
  cases hclause : env.tree.childOfKind? n .asClause with
  | none =>
    refine .definition other (idle_guard (idle_map fun c => ?_) _) rfl
      (by simp [Action.isPlain, Action.isIdle])
    simp [Step.Idle]
  | some first =>
    let complete : env.tree.Child n → List Action := fun c =>
      if some first = some c.val then [.endDefinition s, .attach s] else []
    show Begins env n (.around ((env.tree.childList n).map fun c =>
      ({ child := c, after := complete c } : Step env.tree n)) [.leaveScope] [.leaveScope]) _
    have plain : ∀ c, ∀ a ∈ complete c, a.isPlain := by
      intro c a ha
      simp only [complete] at ha
      split at ha
      · simp only [List.mem_cons, List.not_mem_nil, or_false] at ha
        rcases ha with rfl | rfl <;> rfl
      · cases ha
    have owes : ∀ c, (complete c).flatMap Action.owes = if first = c.val then [s] else [] := by
      intro c
      simp only [complete, Option.some.injEq]
      split <;> rfl
    refine ⟨?_, fun step hstep a ha => ?_, .plain (by simp [Plan.around, Action.isPlain,
      Action.isIdle]) other⟩
    · have single := flatMap_single (env.tree.nodup_children n)
        (List.mem_of_find?_eq_some hclause) [s]
      have same : (env.tree.childList n).flatMap (fun c => (complete c).flatMap Action.owes) =
          (env.tree.children n).flatMap fun m => if first = m then [s] else [] := by
        rw [← List.attach_map_subtype_val (env.tree.children n), List.flatMap_map]
        simp only [owes]
        rfl
      have all := same.trans single
      unfold owed Plan.around
      rw [List.flatMap_map, List.flatMap_map]
      show Entering env n _ ((env.tree.childList n).flatMap
        (fun c => (complete c).flatMap Action.owes) ++ [])
      rw [all]
      exact .opens s (absurd · other)
    · obtain ⟨step', hstep', rfl⟩ := List.mem_map.1 hstep
      obtain ⟨c, -, rfl⟩ := List.mem_map.1 hstep'
      exact plain c a ha

end Enter

/-! ### Events, parameters and buffers -/

theorem logs_enterEvent (kind : env.tree.kind n = .defineEvent) :
    Logs env (entering env n) (enterEvent env n) (Begins env n) := by
  refine (logs_define makes_event entering_self _).seq fun s ds hds => .bind .read fun w => ?_
  have turns : Logs env (entering env n)
      (modifyThe Walk fun w => { w with openEvent := some s })
      fun _ es => es = [.turn (some s)] := by
    intro w _ w' hok
    cases hok
    exact ⟨_, (Effect.turn (some s)).log, rfl⟩
  refine turns.seq fun _ es hes => .pure ?_
  rw [hds, hes, List.append_nil]
  have idle := idle_guard (idle_plainSteps (t := env.tree) (n := n))
    [.closeEvent w.openEvent, .endDefinition s]
  exact ⟨by rw [Plan.around, owed_of_idle idle]; exact .event kind s,
    fun step hstep a ha => Action.isPlain_of_isIdle (idle step hstep a ha), .event kind _ s⟩

theorem logs_enterParameter
    (kind : env.tree.kind n = .defineParameter ∨ env.tree.kind n = .functionParameter) :
    Logs env (entering env n) (enterParameter env n) (Begins env n) :=
  logs_opens (makes_variable _) _ fun s => by
    have idle := idle_guard (idle_plainSteps (t := env.tree) (n := n)) [.endDefinition s]
    exact ⟨by rw [Plan.around, owed_of_idle idle]; exact .opens s fun _ => rfl,
      fun step hstep a ha => Action.isPlain_of_isIdle (idle step hstep a ha), .parameter kind s⟩

/-- A plan that does something at its end, but owes nothing. -/
theorem Begins.closing {steps : List (Step env.tree n)} {a : Action} (h : ∀ s ∈ steps, s.Idle)
    (owes : a.owes = []) (leaving : Leaving env n [a]) :
    Begins env n { steps, leave := [a] } [] where
  entering := by
    rw [owed_of_idle h, List.flatMap_singleton, owes]
    exact .nothing
  steps s hs b hb := Action.isPlain_of_isIdle (h s hs b hb)
  leaving := leaving

theorem logs_enterTableParameter (kind : env.tree.kind n = .tableParameter) :
    Logs env (entering env n) (enterTableParameter env n) (Begins env n) := by
  refine .pure ?_
  cases hrecord : env.tree.childOfKind? n .record with
  | some record => exact .closing (idle_firstSteps _ _) rfl (.tableParameter kind hrecord)
  | none => exact .quiet (by simp [StandsForParameter, kind, hrecord]) (idle_firstSteps _ _)

/-! ### All kinds -/

/-- How the visit of a node begins. -/
theorem enter_begins {w w' : Walk} (hs : Sound w) {plan : Plan env.tree n}
    (hok : enter env n w = .ok plan w') :
    ∃ ds, Log env (entering env n) w ds w' ∧ Begins env n plan ds := by
  have logged : ∀ {m : WalkM (Plan env.tree n)}, Logs env (entering env n) m (Begins env n) →
      m w = .ok plan w' → ∃ ds, Log env (entering env n) w ds w' ∧ Begins env n plan ds :=
    fun logs hok => logs w plan w' hok
  have other : mayStand (env.tree.kind n) = false → ¬ StandsForParameter env.tree n :=
    not_standsForParameter
  have free : env.tree.kind n ≠ .record ∧ env.tree.kind n ≠ .field → (entering env n).tables := id
  unfold enter at hok
  generalize hkind : env.tree.kind n = k at hok other free
  cases k with
  | classStatement | interfaceStatement => exact logged (logs_enterClass (other rfl) _) hok
  | doBlock | repeatBlock => exact logged (logs_enterBlock (other rfl) _ idle_plainSteps) hok
  | forBlock => exact logged (logs_enterBlock (other rfl) _ (idle_qualifyingSteps _ _)) hok
  | blockFor => exact logged (.pure (begins_blockForPlan (other rfl))) hok
  | procedureStatement | methodStatement | constructorStatement | destructorStatement
  | propertyAccessor =>
    exact logged (logs_enterRoutine (other rfl) _ _ (by decide)) hok
  | functionStatement => exact logged (logs_enterFunction (other rfl) hkind) hok
  | onStatement => exact logged (logs_enterTrigger (other rfl)) hok
  | catchBlock => exact logged (logs_enterCatch (other rfl)) hok
  | defineVariable => exact logged (logs_enterVariable (other rfl)) hok
  | defineParameter => exact logged (logs_enterParameter (.inl hkind)) hok
  | functionParameter => exact logged (logs_enterParameter (.inr hkind)) hok
  | defineProperty => exact logged (logs_enterProperty (other rfl)) hok
  | defineTempTable | defineWorkTable =>
    exact logged (logs_enterTable (other rfl) (free (by simp)) (by decide)) hok
  | defineBuffer => exact logged (.pure (.closing (idle_firstSteps _ _) rfl (.buffer hkind _))) hok
  | bufferParameter =>
    exact logged (.pure (.closing (idle_firstSteps _ _) rfl (.bufferParameter hkind _))) hok
  | tableParameter => exact logged (logs_enterTableParameter hkind) hok
  | defineEvent => exact logged (logs_enterEvent hkind) hok
  | defineBrowse => exact logged (logs_enterBrowse (other rfl)) hok
  | defineWidget widget => exact logged (logs_enterWidget (other rfl) widget) hok
  | asClause => exact logged (logs_enterAs (other rfl) (free (by simp))) hok
  | likeClause => exact logged (logs_enterLike (other rfl)) hok
  | extentClause => exact logged (logs_enterExtent (other rfl) (free (by simp))) hok
  | returnsClause => exact logged (logs_enterReturns (other rfl)) hok
  | tableLike => exact logged (logs_enterTableLike (other rfl)) hok
  | tableUseIndex => exact logged (logs_enterUseIndex (other rfl)) hok
  | tableField => exact begins_enterTableField (other rfl) (free (by simp)) hs hok
  | tableIndex => exact logged (logs_enterTableIndex (other rfl) (free (by simp))) hok
  | relationFields =>
    exact logged (.pure (.quiet (other rfl) (idle_relationSteps _ _))) hok
  | keyFields | fieldsPhrase | exceptPhrase | usingPhrase =>
    exact logged (logs_enterFieldList (other rfl) _) hok
  | aggregateOption => exact logged (logs_enterAggregate (other rfl)) hok
  | messageOption => exact logged (.pure (begins_messagePlan (other rfl))) hok
  | parameterTableHandle | parameterDatasetHandle =>
    exact logged (.pure (begins_handlePlan (other rfl))) hok
  | recordPhrase => exact logged (logs_enterRecordPhrase (other rfl)) hok
  | formItem | expression => exact logged (logs_enterExpression (other rfl)) hok
  | memoryManagementFunction => exact logged (logs_enterMemoryFunction (other rfl)) hok
  | widgetAttribute => exact logged (logs_enterWidgetAttribute (other rfl)) hok
  | widgetName => exact logged (logs_enterWidgetName (other rfl)) hok
  | field => exact logged (logs_enterField (other rfl) hkind) hok
  | record => exact logged (logs_enterRecord (other rfl) hkind) hok
  | indexField | identifier | typeName | literal | datatype | keyword =>
    exact logged (.pure (.quiet (other rfl) (by simp))) hok
  | program | statement | aggregatePhrase | messageStatement | runStatement =>
    exact logged (.pure (.quiet (other rfl) idle_plainSteps)) hok
  | blockWhile | browseDisplay | browseEnable | displayStatement | formStatement
  | enableStatement | promptForStatement | setStatement | updateStatement | systemDialog
  | runParameter | runSet =>
    exact logged (.pure (.quiet (other rfl) (idle_qualifiedSteps _))) hok
  | blockPreselect | dataRelation | parentIdRelation | sourceBufferPhrase | assignStatement
  | createStatement | deleteStatement | releaseStatement | validateStatement | recordFunction
  | findStatement | openQuery | parameterTable | parameterBuffer =>
    exact logged (.pure (.quiet (other rfl) (idle_qualifyingSteps _ _))) hok
  | blockIterator | assignEqual | bufferCompare | bufferCopy | rawTransfer =>
    exact logged (.pure (.quiet (other rfl) (idle_operandSteps _ _))) hok

end AblResolve.Walk
