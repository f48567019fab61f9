import AblResolve.Proofs.Reached
import AblResolve.Proofs.Typing
/-!
What happens around the visit of one node. A walk is cut into what it does before the visit, the
visit itself, and what it does afterwards; on both sides, a symbol keeps its type as long as no type
clause is entered there while it is the innermost open definition.
-/
namespace AblResolve.Walk

open UnitIndex ParseTree

variable {env : Env} {n : NodeId} {v w w' w'' : Walk} {s : SymbolId}

/-! ### What clauses do -/

section Clauses

/-- Nothing else shares the field of what is being defined. -/
theorem Regular.alone (h : Regular w) (isOpen : s ∈ w.openDefinitions) {b b' : FieldBuffer}
    {i : SymbolId} (hne : i ≠ s) (hs : w.index.asFieldBuffer? s = some b)
    (hi : w.index.asFieldBuffer? i = some b') : b'.field ≠ b.field := by
  have pending : b.field ∈ w.index.pendingFields w.openDefinitions :=
    List.mem_filterMap.2 ⟨s, isOpen, by simp [hs]⟩
  have none := ((h.tables.unowned _).1 pending).fieldOwner
  obtain ⟨name, hrole⟩ := asFieldBuffer?_iff_role?.1 hs
  obtain ⟨name', hrole'⟩ := asFieldBuffer?_iff_role?.1 hi
  exact fun same => hne ((h.buffers.handles s b name hrole).alone none i b' name' hrole' same)

theorem retypes_variable {x : UnitIndex} {symbol : Symbol} {u : Variable}
    (found : x.symbols.get? s = some symbol) (t : ValueType) :
    x.Retypes s t { x with
      symbols :=
        x.symbols.update s fun s => { s with kind := .variable { u with type := t } } } where
  type _ := by
    unfold valueType
    rw [Arena.get?_update, if_pos rfl, found]
    rfl
  others i _ hne := by
    unfold valueType
    rw [Arena.get?_update, if_neg hne.symm]
    rfl
  diagnostics := rfl

theorem Regular.retypes_field (h : Regular w) (isOpen : s ∈ w.openDefinitions) {symbol : Symbol}
    {b : FieldBuffer} (found : w.index.symbols.get? s = some symbol)
    (kind : symbol.kind = .fieldBuffer b) (f : ValueType → ValueType) :
    w.index.Retypes s (f (w.index.valueType s)) { w.index with
      fields := w.index.fields.update b.field fun v => { v with type := f v.type } } where
  type _ := by
    have ok := (h.sound.coherent.symbols found).kind
    rw [kind] at ok
    obtain ⟨field, hfield⟩ := Arena.exists_get? ok.2.2
    unfold valueType
    simp only [found, typeOf, kind, Arena.get?_update, if_true, hfield, Option.map_some]
  others i lt hne := by
    obtain ⟨u, hu⟩ := Arena.exists_get? lt
    have reaches := asFieldBuffer?_eq_some.2 ⟨symbol, found, kind⟩
    unfold valueType
    simp only [hu, typeOf]
    cases hk : u.kind with
    | fieldBuffer b' =>
      have apart := h.alone isOpen hne reaches (asFieldBuffer?_eq_some.2 ⟨u, hu, hk⟩)
      simp only [Arena.get?_update, if_neg apart.symm]
    | _ => rfl
  diagnostics := rfl

/-- What is being defined takes the type, and nothing else does. -/
theorem Regular.updateType_retypes (h : Regular w) (isOpen : s ∈ w.openDefinitions)
    {f : ValueType → ValueType} (hok : updateType s f w = .ok () w') :
    w.index.Retypes s (f (w.index.valueType s)) w'.index := by
  unfold updateType at hok
  obtain ⟨symbol, w₁, hsymbol, hrest⟩ := bind_ok.1 hok
  obtain ⟨found, rfl⟩ := symbolAt_ok.1 hsymbol
  have ok := (h.sound.coherent.symbols found).kind
  cases hk : symbol.kind with
  | «variable» u =>
    rw [hk] at hrest
    have own : w.index.valueType s = u.type := by simp [valueType, found, typeOf, hk]
    rw [updateSymbol_ok hrest, own]
    exact retypes_variable found _
  | fieldBuffer b =>
    rw [hk] at hrest ok
    have post := (ends_updateField (E := Never) (Q := fun _ v => v = { w with
      index := { w.index with
        fields := w.index.fields.update b.field fun v => { v with type := f v.type } } })
      ok.2.2).2 rfl
    rw [post.ok hrest]
    exact h.retypes_field isOpen found hk f
  | _ =>
    rw [hk] at hrest
    cases hrest
    refine ⟨?_, fun _ _ _ => rfl, rfl⟩
    rintro ⟨u, hu, typed⟩
    rw [found] at hu
    cases hu
    rw [hk] at typed
    cases typed

theorem Regular.copyType_retypes (h : Regular w) (hclause : (env.tree.kind n).isTypeClause)
    (isOpen : s ∈ w.openDefinitions) {source : SymbolId} (hok : copyType source s w = .ok () w') :
    w.index.Retypes s ((w.index.valueType s).like (w.index.valueType source)) w'.index := by
  unfold copyType at hok
  obtain ⟨x, w₁, hx, hrest⟩ := bind_ok.1 hok
  cases hx
  obtain ⟨symbol, w₂, hsymbol, hrest⟩ := bind_ok.1 hrest
  obtain ⟨found, rfl⟩ := symbolAt_ok.1 hsymbol
  have hsource : w.index.valueType source = w.index.typeOf symbol := by rw [valueType, found]
  rw [hsource]
  dsimp only at hrest
  cases htype : (w.index.typeOf symbol).dataType with
  | none =>
    rw [htype] at hrest
    have retyped := h.updateType_retypes isOpen hrest
    rwa [ValueType.like, htype]
  | some type =>
    rw [htype] at hrest
    obtain ⟨_, w₁, htyped, hextent⟩ := bind_ok.1 hrest
    have moves := (ends_setDataType env n h.sound _ _ hclause isOpen).ok htyped
    have isOpen₁ : s ∈ w₁.openDefinitions := moves.openDefinitions ▸ isOpen
    have first := h.updateType_retypes isOpen htyped
    have second := ((Runs.strides moves.runs h.sound).regular h).updateType_retypes isOpen₁ hextent
    refine { first.trans moves.runs.extends second with type := fun typed => ?_ }
    rw [second.type (typed.extends moves.runs.extends), first.type typed, ValueType.like, htype]
    dsimp only
    rw [← htype]

/-- A LIKE clause ends by copying the type of what its field stands for, or by a finding if that is
nothing. -/
theorem copyFieldType_ok {field : NodeId} (hok : copyFieldType env field s w = .ok () w') :
    (∃ source, (w.notes.get field).symbol = some source ∧ copyType source s w = .ok () w') ∨
      (w.notes.get field).symbol = none ∧ w' = { w with index := { w.index with
        diagnostics := w.index.diagnostics.add
          (.unresolvedLikeSource (env.tree.text field) (env.tree.location field)) } } := by
  unfold copyFieldType at hok
  obtain ⟨a, w₁, ha, hrest⟩ := bind_ok.1 hok
  cases ha
  cases hsymbol : (w.notes.get field).symbol with
  | some source =>
    rw [hsymbol] at hrest
    exact .inl ⟨source, rfl, hrest⟩
  | none =>
    rw [hsymbol] at hrest
    cases hrest
    exact .inr ⟨rfl, rfl⟩

theorem Regular.copyFieldType_others (h : Regular w) (hclause : (env.tree.kind n).isTypeClause)
    (isOpen : s ∈ w.openDefinitions) {field : NodeId}
    (hok : copyFieldType env field s w = .ok () w') {i : SymbolId}
    (lt : i.val < w.index.symbols.size) (hne : i ≠ s) :
    w'.index.valueType i = w.index.valueType i := by
  rcases copyFieldType_ok hok with ⟨source, -, hcopy⟩ | ⟨-, rfl⟩
  · exact (h.copyType_retypes hclause isOpen hcopy).others i lt hne
  · rfl

theorem clauseTarget_ok {m : Misplacement} (hok : clauseTarget m w = .ok s w') :
    (∃ rest, w.openDefinitions = s :: rest) ∧ w' = w := by
  unfold clauseTarget at hok
  obtain ⟨u, w₁, hu, hrest⟩ := bind_ok.1 hok
  cases hu
  cases hopen : w.openDefinitions with
  | nil =>
    rw [hopen] at hrest
    cases hrest
  | cons d rest =>
    rw [hopen] at hrest
    cases hrest
    exact ⟨⟨rest, rfl⟩, rfl⟩

/-- What entering a type clause does to types, and what its plan is like. Its target is the
innermost open definition. -/
structure Clause (env : Env) (n : NodeId) (w : Walk) (plan : Plan env.tree n) (v : Walk)
    (target : SymbolId) : Prop where
  isOpen : ∃ rest, w.openDefinitions = target :: rest
  types : Regular w → (∀ i, i.val < w.index.symbols.size → i ≠ target →
    v.index.valueType i = w.index.valueType i) ∧ v.index.diagnostics = w.index.diagnostics
  quiet : ∀ s ∈ plan.steps, s.before = [] ∧ s.after = []
  leave : plan.leave = [] ∨ ∃ field, plan.leave = [.copyType field target]

theorem enterLike_ok {plan : Plan env.tree n} (hok : enterLike env n w = .ok plan v) :
    ∃ target rest, w.openDefinitions = target :: rest ∧ v = w ∧
      plan = match env.tree.childOfKind? n .field with
        | some source =>
          { steps := onlySteps env.tree n .field .symbol, leave := [.copyType source target] }
        | none => .plain env.tree n := by
  unfold enterLike at hok
  obtain ⟨target, w₁, htarget, hrest⟩ := bind_ok.1 hok
  obtain ⟨⟨rest, hopen⟩, rfl⟩ := clauseTarget_ok htarget
  refine ⟨target, rest, hopen, ?_⟩
  cases hfield : env.tree.childOfKind? n .field with
  | some source =>
    rw [hfield] at hrest
    cases hrest
    exact ⟨rfl, rfl⟩
  | none =>
    rw [hfield] at hrest
    cases hrest
    exact ⟨rfl, rfl⟩

theorem quiet_plain : ∀ s ∈ (Plan.plain env.tree n).steps, s.before = [] ∧ s.after = [] := by
  intro s hs
  obtain ⟨c, -, rfl⟩ := List.mem_map.1 hs
  exact ⟨rfl, rfl⟩

theorem enterAs_clause {plan : Plan env.tree n} (hok : enterAs env n w = .ok plan v) :
    ∃ target, Clause env n w plan v target := by
  unfold enterAs at hok
  obtain ⟨target, w₁, htarget, hrest⟩ := bind_ok.1 hok
  obtain ⟨⟨rest, hopen⟩, rfl⟩ := clauseTarget_ok htarget
  have isOpen : target ∈ w₁.openDefinitions := hopen ▸ List.mem_cons_self
  cases htype : clauseType? env n with
  | none =>
    rw [htype] at hrest
    cases hrest
    exact ⟨target, ⟨rest, hopen⟩, fun _ => ⟨fun _ _ _ => rfl, rfl⟩, by simp [Plan.done], .inl rfl⟩
  | some type =>
    rw [htype] at hrest
    obtain ⟨_, w₂, hset, hplan⟩ := bind_ok.1 hrest
    cases hplan
    refine ⟨target, ⟨rest, hopen⟩, fun regular => ?_, by simp [Plan.done], .inl rfl⟩
    have retyped := regular.updateType_retypes isOpen hset
    exact ⟨retyped.others, retyped.diagnostics⟩

theorem enterLike_clause {plan : Plan env.tree n} (hok : enterLike env n w = .ok plan v) :
    ∃ target, Clause env n w plan v target := by
  obtain ⟨target, rest, hopen, rfl, hplan⟩ := enterLike_ok hok
  refine ⟨target, ⟨rest, hopen⟩, fun _ => ⟨fun _ _ _ => rfl, rfl⟩, ?_, ?_⟩
  · intro s hs
    rw [hplan] at hs
    cases hfield : env.tree.childOfKind? n .field with
    | none =>
      rw [hfield] at hs
      exact quiet_plain s hs
    | some source =>
      rw [hfield] at hs
      obtain ⟨c, -, rfl⟩ := List.mem_map.1 hs
      exact ⟨rfl, rfl⟩
  · rw [hplan]
    cases env.tree.childOfKind? n .field with
    | none => exact .inl rfl
    | some source => exact .inr ⟨source, rfl⟩

theorem enterExtent_clause {plan : Plan env.tree n} (hok : enterExtent env n w = .ok plan v) :
    ∃ target, Clause env n w plan v target := by
  unfold enterExtent at hok
  obtain ⟨target, w₁, htarget, hrest⟩ := bind_ok.1 hok
  obtain ⟨⟨rest, hopen⟩, rfl⟩ := clauseTarget_ok htarget
  have isOpen : target ∈ w₁.openDefinitions := hopen ▸ List.mem_cons_self
  obtain ⟨_, w₂, hset, hplan⟩ := bind_ok.1 hrest
  cases hplan
  refine ⟨target, ⟨rest, hopen⟩, fun regular => ?_, quiet_plain, .inl rfl⟩
  have retyped := regular.updateType_retypes isOpen hset
  exact ⟨retyped.others, retyped.diagnostics⟩

theorem enter_clause {plan : Plan env.tree n} (hclause : (env.tree.kind n).isTypeClause)
    (henter : enter env n w = .ok plan v) : ∃ target, Clause env n w plan v target := by
  cases hk : env.tree.kind n with
  | asClause =>
    simp only [enter, hk] at henter
    exact enterAs_clause henter
  | likeClause =>
    simp only [enter, hk] at henter
    exact enterLike_clause henter
  | extentClause =>
    simp only [enter, hk] at henter
    exact enterExtent_clause henter
  | _ =>
    rw [hk] at hclause
    cases hclause

end Clauses

/-! ### What everything else does -/

section Others

theorem Runs.keepsTypes (h : Runs env n w w') (hn : (env.tree.kind n).isTypeClause = false) :
    w.index.KeepsTypes w'.index := by
  induction h with
  | refl => exact .refl _
  | tail _ step ih =>
    refine ih.trans ?_
    rcases step with move | turn
    · cases move with
      | index change => exact (change.mono (by simp [hn]) id).keepsTypes
      | _ => exact .refl _
    · exact turn.keepsTypes

theorem Refer.keepsTypes {ref : Reference} (h : Refer env n w ref w') :
    w.index.KeepsTypes w'.index := by
  refine h.refers.keepsTypes ?_
  cases h with
  | field =>
    unfold countedField
    split <;> rfl
  | _ => rfl

theorem Miss.keepsTypes {h : TableHint} (miss : Miss env n w h w') :
    w.index.KeepsTypes w'.index := by
  cases miss with
  | anywhere => exact ⟨.refl _ _, .refl _ _, rfl⟩
  | inTable =>
    refine ⟨.refl _ _, .refl _ _, ?_⟩
    simp [likeFindings, Diagnostics.withCode, Diagnostics.add, Diagnostic.unresolvedField]

theorem Enters.keepsTypes (h : Enters env n w w') (hn : (env.tree.kind n).isTypeClause = false) :
    w.index.KeepsTypes w'.index := by
  cases h with
  | plain runs => exact runs.keepsTypes hn
  | refer moves _ refer => exact (Runs.keepsTypes moves.runs hn).trans refer.keepsTypes
  | miss moves miss => exact (Runs.keepsTypes moves.runs hn).trans miss.keepsTypes

theorem Performs.keepsTypes {a : Action} (h : Performs env n w a w')
    (hn : (env.tree.kind n).isTypeClause = false) : w.index.KeepsTypes w'.index := by
  cases h with
  | runs _ runs => exact runs.keepsTypes hn
  | bind binds => exact binds.change.keepsTypes
  | unused => exact .refl _
  | use => exact (refers_counted _ _ _).keepsTypes rfl

end Others

/-! ### Types on the way -/

/-- The type clauses among the nodes in `es` that are entered while `i` is the innermost open
definition. -/
def clausesFor (env : Env) (i : SymbolId) (es : List (NodeId × Walk)) : List (NodeId × Walk) :=
  es.filter fun e => (env.tree.kind e.1).isTypeClause && e.2.openDefinitions.head? = some i

/-- A walk comes from `w` to `w'`. A symbol gets another type only if it is the target of one of the
clauses in `es`, and there is a finding about a LIKE clause only if it is one of them. -/
structure Typed (env : Env) (es : List (NodeId × Walk)) (w w' : Walk) : Prop where
  strides : Strides w w'
  types : Regular w → ∀ i, i.val < w.index.symbols.size → clausesFor env i es = [] →
    w'.index.valueType i = w.index.valueType i
  findings : Regular w → (∀ e ∈ es, env.tree.kind e.1 ≠ .likeClause) →
    w'.index.likeFindings = w.index.likeFindings

section Typed

variable {es es' : List (NodeId × Walk)}

theorem Typed.refl (es : List (NodeId × Walk)) (w : Walk) : Typed env es w w :=
  ⟨.refl, fun _ _ _ _ => rfl, fun _ _ => rfl⟩

theorem Typed.trans (h : Typed env es w w') (k : Typed env es w' w'') : Typed env es w w'' where
  strides := h.strides.trans k.strides
  types regular i lt none :=
    (k.types (h.strides.regular regular) i (h.strides.extends.lt_symbols lt) none).trans
      (h.types regular i lt none)
  findings regular unlike :=
    (k.findings (h.strides.regular regular) unlike).trans (h.findings regular unlike)

theorem Typed.mono (h : Typed env es w w') (sub : es ⊆ es') : Typed env es' w w' where
  strides := h.strides
  types regular i lt none := by
    refine h.types regular i lt (List.filter_eq_nil_iff.2 fun e he => ?_)
    exact List.filter_eq_nil_iff.1 none e (sub he)
  findings regular unlike := h.findings regular fun e he => unlike e (sub he)

theorem Typed.of_keeps (strides : Strides w w') (kept : w.index.KeepsTypes w'.index) :
    Typed env es w w' where
  strides := strides
  types regular _ lt _ := kept.valueType strides.extends regular.sound.coherent lt
  findings _ _ := kept.findings

theorem Done.typed {as : List Action} (h : Done env n w as w')
    (hn : (env.tree.kind n).isTypeClause = true → as = []) : Typed env es w w' := by
  cases hclause : (env.tree.kind n).isTypeClause with
  | true =>
    cases hn hclause
    cases h
    exact .refl _ _
  | false =>
    clear hn
    induction h with
    | nil => exact .refl _ _
    | cons sound _ performs _ _ ih =>
      exact (Typed.of_keeps (performs.strides sound) (performs.keepsTypes hclause)).trans ih

theorem Tells.typed {c : NodeId} (h : Tells env c w w') (hs : Sound w) : Typed env es w w' := by
  refine .of_keeps (.single ⟨h.stride, h.sound hs⟩) ?_
  obtain ⟨qualifiers, hints, rfl⟩ := h.eq
  exact .refl _

/-- A LIKE clause copies a type to what is open. -/
theorem Act.copies {x : UnitIndex} {F₀ F F' : Frame} {done : List NodeId} {field : NodeId}
    (h : Act env n x F₀ done F (.copyType field s) F') :
    env.tree.kind n = .likeClause ∧ s ∈ F.definitions := by
  cases h with
  | copyType _ kind isOpen => exact ⟨kind, isOpen⟩

/-- The target of a clause is the innermost open definition. -/
theorem Clause.ne {plan : Plan env.tree n} {target i : SymbolId} (h : Clause env n w plan v target)
    (hclause : (env.tree.kind n).isTypeClause) (none : clausesFor env i [(n, w)] = []) :
    i ≠ target := by
  rintro rfl
  obtain ⟨rest, hopen⟩ := h.isOpen
  have := List.filter_eq_nil_iff.1 none (n, w) (List.mem_singleton_self _)
  simp [hclause, hopen] at this

theorem enter_typed {plan : Plan env.tree n} (henter : enter env n w = .ok plan v) (hs : Sound w) :
    Typed env [(n, w)] w v := by
  have enters := ((ends_enter env n hs).ok henter).enters
  cases hclause : (env.tree.kind n).isTypeClause with
  | false => exact .of_keeps (enters.strides hs) (enters.keepsTypes hclause)
  | true =>
    obtain ⟨target, clause⟩ := enter_clause hclause henter
    exact ⟨enters.strides hs, fun regular i lt none =>
      (clause.types regular).1 i lt (clause.ne hclause none), fun regular _ =>
      congrArg (Diagnostics.withCode · _) (clause.types regular).2⟩

/-- What is done at the end of a node: a LIKE clause types what was the innermost open definition
when the node was entered. -/
theorem leave_typed {plan : Plan env.tree n} {u : Walk} (henter : enter env n w = .ok plan v)
    (done : Done env n u plan.leave w') : Typed env [(n, w)] u w' := by
  cases hclause : (env.tree.kind n).isTypeClause with
  | false => exact done.typed (by simp [hclause])
  | true =>
    obtain ⟨target, clause⟩ := enter_clause hclause henter
    rcases clause.leave with hleave | ⟨field, hleave⟩
    · exact done.typed fun _ => hleave
    · rw [hleave] at done
      obtain ⟨-, ok, _, _, _, act⟩ := done.single
      obtain ⟨like, isOpen⟩ := act.copies
      refine ⟨done.strides, fun regular i lt none => ?_, fun _ unlike => ?_⟩
      · exact regular.copyFieldType_others hclause isOpen ok lt (clause.ne hclause none)
      · exact absurd like (unlike _ (List.mem_singleton_self _))

end Typed

/-! ### Around a visit -/

/-- The nodes in `es` are entered from `w` to `w'`; those in `before` are entered before the visit
of node `e.1` that begins in state `e.2` and ends in state `v'`, those in `after` afterwards. -/
structure Around (env : Env) (es : List (NodeId × Walk)) (e : NodeId × Walk) (w w' : Walk)
    (before after : List (NodeId × Walk)) (v' : Walk) : Prop where
  split : es = before ++ entries env e.1 e.2 ++ after
  visit : visit env e.1 e.2 = .ok () v'
  starts : Typed env (before ++ after) w e.2
  earlier : ∀ e' ∈ before, ∃ plan u, enter env e'.1 e'.2 = .ok plan u ∧
    Typed env (before ++ after) u e.2
  later : ∀ e' ∈ after, Strides v' e'.2
  ends : Typed env (before ++ after) v' w'

/-- All that is known of the nodes in `es`, which are entered from `w` to `w'`. -/
structure Surveys (env : Env) (es : List (NodeId × Walk)) (w w' : Walk) : Prop where
  typed : Typed env es w w'
  entered : ∀ e ∈ es, ∃ plan u, enter env e.1 e.2 = .ok plan u ∧ Typed env es u w'
  around : ∀ e ∈ es, ∃ before after v', Around env es e w w' before after v'

section Surveys

variable {es es' : List (NodeId × Walk)}

theorem Surveys.of_typed (typed : Typed env [] w w') : Surveys env [] w w' :=
  ⟨typed, by simp, by simp⟩

theorem Surveys.append (h : Surveys env es w v) (k : Surveys env es' v w') :
    Surveys env (es ++ es') w w' where
  typed := (h.typed.mono (by simp)).trans (k.typed.mono (by simp))
  entered e he := by
    rcases List.mem_append.1 he with he | he
    · obtain ⟨plan, u, henter, typed⟩ := h.entered e he
      exact ⟨plan, u, henter, (typed.mono (by simp)).trans (k.typed.mono (by simp))⟩
    · obtain ⟨plan, u, henter, typed⟩ := k.entered e he
      exact ⟨plan, u, henter, typed.mono (by simp)⟩
  around e he := by
    rcases List.mem_append.1 he with he | he
    · obtain ⟨before, after, v', around⟩ := h.around e he
      have sub : before ++ after ⊆ before ++ (after ++ es') := by simp
      refine ⟨before, after ++ es', v', ?_, around.visit, around.starts.mono sub, ?_, ?_,
        (around.ends.mono sub).trans (k.typed.mono (by simp))⟩
      · rw [around.split, List.append_assoc]
      · intro e' he'
        obtain ⟨plan, u, henter, typed⟩ := around.earlier e' he'
        exact ⟨plan, u, henter, typed.mono sub⟩
      · intro e' he'
        rcases List.mem_append.1 he' with he' | he'
        · exact around.later e' he'
        · obtain ⟨_, _, _, around'⟩ := k.around e' he'
          exact around.ends.strides.trans around'.starts.strides
    · obtain ⟨before, after, v', around⟩ := k.around e he
      have sub : before ++ after ⊆ es ++ before ++ after := by simp
      have sub' : es ⊆ es ++ before ++ after := by simp
      refine ⟨es ++ before, after, v', ?_, around.visit,
        (h.typed.mono sub').trans (around.starts.mono sub), ?_, around.later,
        around.ends.mono sub⟩
      · rw [around.split]
        simp only [List.append_assoc]
      · intro e' he'
        rcases List.mem_append.1 he' with he' | he'
        · obtain ⟨plan, u, henter, typed⟩ := h.entered e' he'
          exact ⟨plan, u, henter, (typed.mono sub').trans (around.starts.mono sub)⟩
        · obtain ⟨plan, u, henter, typed⟩ := around.earlier e' he'
          exact ⟨plan, u, henter, typed.mono sub⟩

/-- The visit of a node, given what happens below it. -/
theorem Surveys.node {plan : Plan env.tree n} {u : Walk} (henter : enter env n w = .ok plan v)
    (hvisit : visit env n w = .ok () w') (entering : Typed env [(n, w)] w v)
    (below : Surveys env es v u) (leaving : Typed env [(n, w)] u w')
    (split : entries env n w = (n, w) :: es) : Surveys env (entries env n w) w w' := by
  have own : ∀ {rest}, [(n, w)] ⊆ (n, w) :: rest := by simp
  have rest : es ⊆ (n, w) :: es := by simp
  have onward : Typed env ((n, w) :: es) v w' := (below.typed.mono rest).trans (leaving.mono own)
  rw [split]
  refine ⟨(entering.mono own).trans onward, fun e he => ?_, fun e he => ?_⟩
  · rcases List.mem_cons.1 he with rfl | he
    · exact ⟨plan, v, henter, onward⟩
    · obtain ⟨plan', v', henter', typed⟩ := below.entered e he
      exact ⟨plan', v', henter', (typed.mono rest).trans (leaving.mono own)⟩
  · rcases List.mem_cons.1 he with rfl | he
    · exact ⟨[], [], w', by simpa using split.symm, hvisit, .refl _ _, by simp, by simp, .refl _ _⟩
    · obtain ⟨before, after, v', around⟩ := below.around e he
      have sub : before ++ after ⊆ (n, w) :: before ++ after := by simp
      refine ⟨(n, w) :: before, after, v', ?_, around.visit,
        (entering.mono (by simp)).trans (around.starts.mono sub), fun e' he' => ?_, around.later,
        (around.ends.mono sub).trans (leaving.mono (by simp))⟩
      · rw [around.split]
        simp
      · rcases List.mem_cons.1 he' with rfl | he'
        · exact ⟨plan, v, henter, around.starts.mono sub⟩
        · obtain ⟨plan', u', henter', typed⟩ := around.earlier e' he'
          exact ⟨plan', u', henter', typed.mono sub⟩

theorem Rounds.surveys {w₀ : Walk} {steps : List (Step env.tree n)}
    (h : Rounds env n w₀ (fun c v v' => Surveys env (entries env c v) v v') steps w w')
    (quiet : (env.tree.kind n).isTypeClause → ∀ s ∈ steps, s.before = [] ∧ s.after = []) :
    Surveys env (stepsEntries env steps w) w w' := by
  induction h with
  | nil => exact .of_typed (.refl _ _)
  | cons sound prepared tells before began visit visited child after once run others ih =>
    have first := fun hclause => quiet hclause _ List.mem_cons_self
    rw [stepsEntries_of_ok run, Step.entries_of_done prepared before]
    have ready := Surveys.of_typed ((tells.typed sound).trans (before.typed fun h => (first h).1))
    have visits := (ready.append child).append (.of_typed (after.typed fun h => (first h).2))
    have rest := ih fun hclause s hs => quiet hclause s (List.mem_cons_of_mem _ hs)
    simpa using visits.append rest

theorem visit_surveys (n : NodeId) (hs : Sound w) (hok : visit env n w = .ok () w') :
    Surveys env (entries env n w) w w' := by
  refine visit_rounds (P := fun c v v' => Surveys env (entries env c v) v v') ?_ n hs hok
  intro n w plan v v' w' hs henter admitted rounds done visited
  refine .node henter (visit_of_parts henter rounds done) (enter_typed henter hs)
    (rounds.surveys fun hclause => ?_) (leave_typed henter done) (entries_of_ok henter)
  obtain ⟨target, clause⟩ := enter_clause hclause henter
  exact clause.quiet

theorem visitUnit_surveys {notes : Annotations} (hok : visitUnit env (start env notes) = .ok () w) :
    Surveys env (unitEntries env notes) (start env notes) w := by
  refine (visitUnit_rounds (fun c _ _ _ hs hok => visit_surveys c hs hok) hok).surveys fun _ => ?_
  intro s hs
  obtain ⟨c, -, rfl⟩ := List.mem_map.1 hs
  exact ⟨rfl, rfl⟩

end Surveys

end AblResolve.Walk
