import AblResolve.Proofs.ParallelDefinitions
/-!
Entering phrases and references at nodes that two trees share, and so entering any node: from states
that are alike, it changes the states in the same way and gives plans that are alike.
-/
namespace AblResolve

namespace Walk.Parallel

variable {L : Likeness} {env env' : Env} {n : NodeId}

section Handlers

variable (h : env.Alike L env') (hn : L.nodes n)
include h hn

/-! ### Blocks and phrases -/

omit h hn in
theorem enterBlock (kind : BlockKind) {steps : List (Step env.tree n)}
    {steps' : List (Step env'.tree n)} (hs : List.Forall₂ (Step.Alike L) steps steps') :
    Parallel L (Plan.Alike L) (enterBlock env n kind steps) (enterBlock env' n kind steps') :=
  .seq (.openBlock kind n) fun _ =>
    .pure (.around hs (by simp [Action.Shared]) (by simp [Action.Shared]))

theorem blockForPlan : Plan.Alike L (blockForPlan env n) (Walk.blockForPlan env' n) := by
  refine ⟨steps_alike h hn fun c c' hc => ?_, .nil⟩
  rw [kind_child h hn hc]
  split
  · rw [hc]
    exact ⟨hc, rfl, rfl, .nil, .inl (.refl (by simp [Action.Shared])), .nil⟩
  · exact .plain hc

theorem enterFieldList (q : Qualifier) :
    Parallel L (Plan.Alike L) (enterFieldList env n q) (enterFieldList env' n q) := by
  refine .bind .get fun w w' hw => ?_
  rw [hw.lastTable]
  refine .pure ⟨steps_alike h hn fun c c' hc => ?_, .nil⟩
  rw [kind_child h hn hc]
  split
  · exact ⟨hc, rfl, rfl, .nil, .inl .nil, .nil⟩
  · exact .plain hc

theorem usingQualifier : usingQualifier env n = Walk.usingQualifier env' n := by
  unfold Walk.usingQualifier
  rw [h.parentKind hn]

theorem relationPlan : Plan.Alike L (relationPlan env n) (Walk.relationPlan env' n) := by
  have relation : ∀ {cs cs'}, List.Forall₂ (fun c c' => c.val = c'.val) cs cs' → ∀ hint,
      List.Forall₂ (Step.Alike L) (relationSteps env.tree n hint cs)
        (relationSteps env'.tree n hint cs') := by
    intro cs cs' hcs
    induction hcs with
    | nil => exact fun _ => .nil
    | cons hc _ ih =>
      intro hint
      rw [relationSteps, relationSteps, kind_child h hn hc]
      split
      · exact .cons ⟨hc, rfl, rfl, .nil, .inl .nil, .nil⟩ (ih _)
      · exact .cons (.plain hc) (ih _)
  exact ⟨relation (childList_alike h hn) _, .nil⟩

omit hn in
theorem takeQualifier (m : NodeId) :
    Parallel L Eq (takeQualifier env m) (takeQualifier env' m) := by
  have noted : ∀ env : Env, (if env.options.recordDefaultedQualifiers then do
        Walk.modifyIndex fun x => { x with defaulted := x.defaulted ++ [m] }
        return Qualifier.ref
      else return .ref) = (do
        Walk.modifyIndex fun x => { x with defaulted := env.options.noting m x.defaulted }
        return .ref : WalkM Qualifier) := by
    intro env
    unfold Options.noting
    split <;> rfl
  refine .bind .get fun w w' hw => ?_
  rw [hw.qualifiers]
  dsimp only [SideTable.take]
  refine .seq (.modify fun _ _ hw => { hw with qualifiers := rfl }) fun _ => ?_
  cases w'.qualifiers.find? m with
  | some q => exact .pure rfl
  | none =>
    dsimp only
    rw [noted, noted]
    exact .seq (.modifyIndex fun x y hx => { hx with defaulted := h.defaults hx.defaulted m })
      fun _ => .pure rfl

theorem enterExpression :
    Parallel L (Plan.Alike L) (enterExpression env n) (enterExpression env' n) :=
  .seq (.takeQualifier h n) fun q => .seq (.annotate n _) fun _ => .pure (.qualified h hn q)

theorem enterRecordPhrase :
    Parallel L (Plan.Alike L) (enterRecordPhrase env n) (enterRecordPhrase env' n) :=
  .seq (.takeQualifier h n) fun q => .pure (.qualifying h hn .record q)

theorem enterMemoryFunction :
    Parallel L (Plan.Alike L) (enterMemoryFunction env n) (enterMemoryFunction env' n) :=
  .seq (.takeQualifier h n) fun _ => .seq (.annotate n _) fun _ => .pure (.operands h hn _ _)

theorem messagePlan : Plan.Alike L (messagePlan env n) (Walk.messagePlan env' n) := by
  unfold Walk.messagePlan
  rw [h.hasKeyword hn, h.hasKeyword hn]
  split
  · exact .qualifying h hn _ _
  · exact .plain h hn

theorem argumentQualifier :
    argumentQualifier env.tree n = Walk.argumentQualifier env'.tree n := by
  unfold Walk.argumentQualifier
  simp only [h.hasKeyword hn]

theorem handlePlan : Plan.Alike L (handlePlan env n) (Walk.handlePlan env' n) := by
  refine ⟨steps_alike h hn fun c c' hc => ?_, .nil⟩
  rw [kind_child h hn hc]
  split
  · refine ⟨hc, rfl, rfl, .nil, ?_, .nil⟩
    cases counts : L.counts with
    | true =>
      rw [h.handleMode counts hn, hc]
      refine .inl (.refl fun a ha => ?_)
      split at ha
      · rw [List.mem_singleton] at ha
        exact ha ▸ trivial
      · cases ha
    | false =>
      have uses : ∀ (mode : Qualifier) (c : NodeId), ∀ a ∈ (if mode.isWrite then
          [Action.countUse c mode] else []), a.isUse := by
        intro mode c a ha
        split at ha
        · rw [List.mem_singleton] at ha
          exact ha ▸ rfl
        · cases ha
      exact .inr ⟨counts, uses _ _, uses _ _⟩
  · exact .plain hc

/-! ### Records and fields -/

omit h hn in
theorem bindRecord (buffer : SymbolId) (q : Qualifier) :
    Parallel L Eq (bindRecord buffer q) (bindRecord buffer q) := by
  cases q with
  | init | ref | refUp | updating => exact .map (.bindReference buffer) fun _ _ h => congrArg some h
  | initWeak => exact .map (.bindWeakly buffer) fun _ _ h => congrArg some h
  | symbol | bufferSymbol | tempTableSymbol | schemaTableSymbol => exact .pure rfl

omit h hn in
theorem bufferStore (buffer : SymbolId) :
    Parallel L Eq (bufferStore buffer) (bufferStore buffer) := by
  refine .bind .theIndex fun x y hx => ?_
  rw [hx.bufferTable?]
  cases y.bufferTable? buffer with
  | some t =>
    refine .bind (.tableAt t) fun v v' hv => ?_
    have kind : v.kind = v'.kind := (congrArg Table.kind hv.1 :)
    rw [kind]
    exact .pure rfl
  | none => exact .breach _

theorem enterRecord : Parallel L (Plan.Alike L) (enterRecord env n) (enterRecord env' n) := by
  refine .seq (.takeQualifier h n) fun q => ?_
  refine .seq (.findBuffer? h.catalog (h.text hn) _) fun found => ?_
  cases found with
  | none =>
    refine .throw ?_
    simp only [Likeness.fault, h.text hn, h.fileName hn, h.location hn]
  | some buffer =>
    refine .seq (.bindRecord buffer q) fun bufferScope => .seq (.noteReference buffer q) fun _ => ?_
    refine .seq (.bufferStore buffer) fun store => .bind .theIndex fun x y hx => ?_
    dsimp only
    rw [hx.isAbbreviatedTable buffer (h.text hn)]
    refine .seq (.annotate n _) fun _ => .seq (.modify fun w w' hw => ?_) fun _ =>
      .pure (.plain h hn)
    exact { hw with lastTable := rfl, previousTable := hw.lastTable }

omit h hn in
theorem storeOf (s : SymbolId) : Parallel L Eq (storeOf s) (storeOf s) := by
  refine .bind (.symbolAt s) fun v v' hv => ?_
  have hkind := UnitIndex.Alike.kind_congr hv
  cases hk : v.kind <;> cases hk' : v'.kind <;> simp only [hk, hk', Likeness.kind, reduceCtorEq,
    SymbolKind.fieldBuffer.injEq] at hkind ⊢
  case fieldBuffer.fieldBuffer f f' =>
    subst hkind
    exact .map (.bufferStore f.buffer) fun _ _ h => congrArg some h
  all_goals exact .pure rfl

omit h hn in
theorem annotateField (n : NodeId) (found : FieldLookup) (q : Qualifier) :
    Parallel L Eq (annotateField n found q) (annotateField n found q) := by
  refine .seq (.storeOf _) fun store => .seq (.annotate n _) fun _ => ?_
  refine .seq (.noteReference _ q) fun _ => .bind (.symbolAt _) fun v v' hv => ?_
  have hkind := UnitIndex.Alike.kind_congr hv
  cases hk : v.kind <;> cases hk' : v'.kind <;> simp only [hk, hk', Likeness.kind, reduceCtorEq,
    SymbolKind.fieldBuffer.injEq] at hkind ⊢
  case fieldBuffer.fieldBuffer f f' =>
    subst hkind
    exact .noteReference f.buffer q
  all_goals exact .pure rfl

omit h hn in
theorem addUnresolved (n : NodeId) {name name' : String} (hname : L.text name = L.text name') :
    Parallel L Eq (addUnresolved n name) (addUnresolved n name') := by
  refine .seq .currentScope fun scope => .modifyIndex fun x y hx => { hx with unresolved := ?_ }
  simp only [List.map_append, hx.unresolved, List.map_singleton, Likeness.unresolved, hname]

theorem isTolerant : isTolerant env n = Walk.isTolerant env' n := by
  unfold Walk.isTolerant
  rw [h.parentKind hn]

theorem missingField (buffer : SymbolId) {name name' : String}
    (hname : L.text name = L.text name') :
    Parallel L Eq (missingField env n buffer name) (missingField env' n buffer name') := by
  unfold Walk.missingField
  rw [isTolerant h hn]
  refine .ite Iff.rfl ?_ (.pure rfl)
  refine .bind (.symbolAt buffer) fun v v' hv => .seq (.report ?_) fun _ => .addUnresolved n hname
  rw [h.location hn]
  exact Likeness.diagnostic_unresolvedField hname (congrArg Symbol.name hv :) _

theorem defineInline : Parallel L Eq (defineInline env n) (defineInline env' n) :=
  .seq .currentScope fun scope => .seq (.createSymbol scope _ (h.text hn) rfl false) fun s =>
    .attach s

omit h hn in
theorem hintedBuffer? (hint : TableHint) :
    Parallel L Eq (hintedBuffer? hint) (hintedBuffer? hint) := by
  cases hint with
  | any => exact .pure rfl
  | last => exact .bind .get fun _ _ hw => .pure hw.lastTable
  | previous => exact .bind .get fun _ _ hw => .pure hw.previousTable

theorem resolveField (q : Qualifier) (hint : TableHint) :
    Parallel L Eq (resolveField env n q hint) (resolveField env' n q hint) := by
  have name := h.text hn
  refine .seq (.hintedBuffer? hint) fun hinted => ?_
  cases hinted with
  | some buffer =>
    refine .seq (.fieldOfBuffer? buffer name) fun found => ?_
    cases found with
    | some found => exact .annotateField n found q
    | none => exact .missingField h hn buffer name
  | none =>
    refine .seq (.lookupField? h.catalog name _) fun found => ?_
    cases found with
    | some found => exact .annotateField n found q
    | none => exact .addUnresolved n name

omit h hn in
theorem takeHint (m : NodeId) : Parallel L Eq (takeHint m) (takeHint m) := by
  refine .bind .get fun w w' hw => ?_
  rw [hw.hints]
  exact .seq (.modify fun _ _ hw => { hw with hints := rfl }) fun _ => .pure rfl

theorem enterField : Parallel L (Plan.Alike L) (enterField env n) (enterField env' n) := by
  refine .seq (.takeQualifier h n) fun q => .seq (.takeHint n) fun hint => ?_
  rw [h.hasKeyword hn, h.definesInline hn]
  refine .ite Iff.rfl ?_ (.pure (.plain h hn))
  have resolve := Parallel.resolveField h hn q hint
  refine .ite Iff.rfl ?_ ?_
  · exact .seq (.defineInline h hn) fun _ => .seq resolve fun _ => .pure (.plain h hn)
  · exact .seq resolve fun _ => .pure (.plain h hn)

/-! ### Widgets and members -/

theorem widgetSymbol? : Parallel L Eq (widgetSymbol? env n) (widgetSymbol? env' n) := by
  have fold := Likeness.fold_congr (h.text hn)
  refine .bind .theIndex fun x y hx => .seq .currentScope fun scope => ?_
  rw [h.hasKeyword hn, h.hasKeyword hn, h.hasKeyword hn, hx.resolve? scope _ fold,
    hx.resolve? scope _ fold, hx.resolve? scope _ fold, hx.findIn? _ _ fold, h.location hn]
  refine .ite Iff.rfl ?_ (.ite Iff.rfl (.pure rfl) (.ite Iff.rfl (.pure rfl) (.pure rfl)))
  cases (y.resolve? scope .buffer (env'.tree.text n)).or
      (y.findIn? UnitIndex.rootScope .table (env'.tree.text n)) with
  | some buffer => exact .pure rfl
  | none =>
    exact .seq (.report (Likeness.diagnostic_unresolvedBuffer (h.text hn) _)) fun _ => .pure rfl

theorem enterWidgetName :
    Parallel L (Plan.Alike L) (enterWidgetName env n) (enterWidgetName env' n) := by
  refine .seq (.widgetSymbol? h hn) fun found => ?_
  cases found with
  | some s => exact .seq (.noteReference s _) fun _ => .seq (.annotate n _) fun _ => .pure .done
  | none => exact .pure .done

theorem referToMember (q : Qualifier) :
    Parallel L Eq (referToMember env n q) (referToMember env' n q) := by
  refine .bind .theIndex fun x y hx => .seq .currentScope fun scope => ?_
  unfold UnitIndex.resolveVariable?
  rw [hx.resolve? scope _ (Likeness.fold_congr (h.text hn))]
  cases y.resolve? scope .variable (env'.tree.text n) with
  | some s => exact .seq (.noteReference s q) fun _ => .annotate n _
  | none => exact .pure rfl

theorem isSelfReference {x y : UnitIndex} (hx : x.Alike L y) :
    isSelfReference env x n = Walk.isSelfReference env' y n := by
  have named := hx.classShortName?
  unfold Walk.isSelfReference
  rw [h.kind hn]
  generalize x.classShortName? = name at named ⊢
  generalize y.classShortName? = name' at named ⊢
  rcases name with _ | name <;> rcases name' with _ | name' <;>
    simp only [Option.map_some, Option.map_none, reduceCtorEq, Option.some.injEq] at named
  · rfl
  · simp only [Text.same_congr (Likeness.fold_congr named) (Likeness.fold_congr (h.text hn))]

theorem memberNode? {cs : List (env.tree.Child n)} {cs' : List (env'.tree.Child n)}
    (hcs : List.Forall₂ (fun c c' => c.val = c'.val) cs cs') :
    memberNode? env n cs = Walk.memberNode? env' n cs' := by
  cases hcs with
  | nil => rfl
  | cons hc _ =>
    rw [Walk.memberNode?, Walk.memberNode?, kind_child h hn hc, hc]

theorem enterWidgetAttribute :
    Parallel L (Plan.Alike L) (enterWidgetAttribute env n) (enterWidgetAttribute env' n) := by
  refine .seq (.takeQualifier h n) fun q => ?_
  have children := childList_alike h hn
  revert children
  generalize env.tree.childList n = cs
  generalize env'.tree.childList n = cs'
  rintro (_ | @⟨target, target', rest, rest', htarget, hrest⟩)
  · exact .pure .done
  have steps : List.Forall₂ (Step.Alike L) (rest.map Step.plain) (rest'.map Step.plain) := by
    rw [List.forall₂_map_left_iff, List.forall₂_map_right_iff]
    exact hrest.imp fun _ _ hc => .plain hc
  refine .bind .theIndex fun x y hx => ?_
  rw [isSelfReference h (h.below hn _ target.property) hx, htarget, memberNode? h hn hrest]
  refine .ite Iff.rfl ?_ (.pure ⟨.cons (.told htarget _) steps, .nil⟩)
  cases hm : Walk.memberNode? env' n rest' with
  | some member =>
    have shared : L.nodes member := by
      rw [← memberNode? h hn hrest] at hm
      rcases rest with _ | ⟨c, rest⟩
      · cases hm
      · simp only [Walk.memberNode?, Option.ite_none_right_eq_some, Option.some.injEq] at hm
        exact hm.2 ▸ h.below hn _ c.property
    exact .seq (.referToMember h shared q) fun _ => .pure ⟨steps, .nil⟩
  | none => exact .pure ⟨steps, .nil⟩

end Handlers

theorem enter (h : env.Alike L env') (hn : L.nodes n) :
    Parallel L (Plan.Alike L) (enter env n) (enter env' n) := by
  unfold Walk.enter
  dsimp only
  rw [h.kind hn]
  cases env'.tree.kind n with
  | program | statement | aggregatePhrase | messageStatement | runStatement =>
    exact .pure (.plain h hn)
  | classStatement => exact enterClass h hn .classBody
  | interfaceStatement => exact enterClass h hn .interface
  | doBlock => exact enterBlock .do (plainSteps_alike h hn)
  | repeatBlock => exact enterBlock .repeat (plainSteps_alike h hn)
  | forBlock => exact enterBlock .for (qualifyingSteps_alike h hn _ _)
  | blockFor => exact .pure (blockForPlan h hn)
  | blockIterator => exact .pure (.operands h hn _ _)
  | blockWhile => exact .pure (.qualified h hn _)
  | blockPreselect => exact .pure (.qualifying h hn _ _)
  | procedureStatement => exact enterRoutine h hn (h.definedName hn) _ _
  | methodStatement => exact enterRoutine h hn (h.definedName hn) _ _
  | functionStatement => exact enterFunction h hn
  | constructorStatement => exact enterRoutine h hn rfl _ _
  | destructorStatement => exact enterRoutine h hn rfl _ _
  | propertyAccessor => exact enterRoutine h hn rfl _ _
  | onStatement => exact enterTrigger h hn
  | catchBlock => exact enterCatch h hn
  | defineVariable => exact enterDefinition h hn rfl (by simp [Action.Shared])
  | defineParameter | functionParameter => exact enterParameter h hn
  | defineProperty => exact enterProperty h hn
  | defineTempTable => exact enterTable h hn _
  | defineWorkTable => exact enterTable h hn _
  | defineBuffer => exact enterBuffer h hn
  | defineEvent => exact enterEvent h hn
  | defineBrowse => exact enterBrowse h hn
  | defineWidget widget => exact enterWidget h hn widget
  | bufferParameter => exact enterBufferParameter h hn
  | tableParameter => exact enterTableParameter h hn
  | asClause => exact enterAs h hn
  | likeClause => exact enterLike h hn
  | extentClause => exact enterExtent h hn
  | returnsClause => exact enterReturns h hn
  | tableLike => exact enterTableLike h hn
  | tableUseIndex => exact enterUseIndex h hn
  | tableField => exact enterTableField h hn
  | tableIndex => exact enterTableIndex h hn
  | browseDisplay | browseEnable => exact .pure (.qualified h hn _)
  | dataRelation | parentIdRelation | sourceBufferPhrase => exact .pure (.qualifying h hn _ _)
  | relationFields => exact .pure (relationPlan h hn)
  | keyFields | fieldsPhrase | exceptPhrase => exact enterFieldList h hn _
  | usingPhrase =>
    dsimp only
    rw [usingQualifier h hn]
    exact enterFieldList h hn _
  | aggregateOption => exact enterAggregate h hn
  | assignStatement | createStatement | deleteStatement => exact .pure (.qualifying h hn _ _)
  | assignEqual => exact .pure (.operands h hn _ _)
  | bufferCompare => exact .pure (.operands h hn _ _)
  | bufferCopy | rawTransfer => exact .pure (.operands h hn _ _)
  | releaseStatement | validateStatement | recordFunction => exact .pure (.qualifying h hn _ _)
  | displayStatement => exact .pure (.qualified h hn _)
  | formStatement | enableStatement | promptForStatement => exact .pure (.qualified h hn _)
  | setStatement | updateStatement | systemDialog => exact .pure (.qualified h hn _)
  | findStatement | openQuery => exact .pure (.qualifying h hn _ _)
  | messageOption => exact .pure (messagePlan h hn)
  | runParameter =>
    dsimp only
    rw [argumentQualifier h hn]
    exact .pure (.qualified h hn _)
  | runSet => exact .pure (.qualified h hn _)
  | parameterTable => exact .pure (.qualifying h hn _ _)
  | parameterTableHandle | parameterDatasetHandle => exact .pure (handlePlan h hn)
  | parameterBuffer => exact .pure (.qualifying h hn _ _)
  | recordPhrase => exact enterRecordPhrase h hn
  | formItem | expression => exact enterExpression h hn
  | memoryManagementFunction => exact enterMemoryFunction h hn
  | widgetAttribute => exact enterWidgetAttribute h hn
  | widgetName => exact enterWidgetName h hn
  | field => exact enterField h hn
  | record => exact enterRecord h hn
  | indexField | identifier | typeName | literal | datatype | keyword => exact .pure .done

end Walk.Parallel

end AblResolve
