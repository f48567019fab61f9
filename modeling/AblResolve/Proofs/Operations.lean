import AblResolve.Proofs.Ends
import AblResolve.Proofs.References
/-!
The operations on scopes, blocks and symbols. In a sound state none of them fails, and each is a
run of moves and turns; what it opens or closes is said by the frame it leaves.
-/
namespace AblResolve

namespace UnitIndex

variable {x : UnitIndex}

/-- A name can be made to lead to the symbol. -/
def Attachable (x : UnitIndex) (i : SymbolId) : Prop := ∃ s space, x.Names s space i

theorem Attachable.extends {y : UnitIndex} {i : SymbolId} (ext : x.Extends y)
    (h : x.Attachable i) : y.Attachable i := by
  obtain ⟨s, space, hnames⟩ := h
  exact ⟨s, space, hnames.extends ext⟩

theorem Attachable.lt_size {i : SymbolId} (h : x.Attachable i) : i.val < x.symbols.size := by
  obtain ⟨s, space, symbol, hs, -⟩ := h
  exact Arena.lt_size_of_get? hs

theorem IsRoutine.lt_size {i : SymbolId} {body : ScopeId} (h : x.IsRoutine i body) :
    i.val < x.symbols.size := by
  obtain ⟨symbol, r, hs, -⟩ := h
  exact Arena.lt_size_of_get? hs

theorem IsBuffer.lt_size {i : SymbolId} (h : x.IsBuffer i) : i.val < x.symbols.size := by
  obtain ⟨t, ht⟩ := h
  obtain ⟨symbol, b, hs, -⟩ := bufferTable?_eq_some.1 ht
  exact Arena.lt_size_of_get? hs

/-- The symbol is there, and it is not a field that is reached through a buffer. -/
def IsPlain (x : UnitIndex) (i : SymbolId) : Prop :=
  i.val < x.symbols.size ∧ x.asFieldBuffer? i = none

theorem IsPlain.extends {y : UnitIndex} {i : SymbolId} (ext : x.Extends y) (h : x.IsPlain i) :
    y.IsPlain i :=
  ⟨ext.lt_symbols h.1, (ext.asFieldBuffer?_eq h.1).trans h.2⟩

/-- No name leads to the field of a buffer. -/
theorem Names.asFieldBuffer? {s : ScopeId} {space : Namespace} {i : SymbolId}
    (h : x.Names s space i) : x.asFieldBuffer? i = none := by
  obtain ⟨symbol, hs, -, hspace⟩ := h
  refine Option.eq_none_iff_forall_ne_some.2 fun f hf => ?_
  obtain ⟨_, hs', hkind⟩ := asFieldBuffer?_eq_some.1 hf
  rw [hs] at hs'
  cases hs'
  rw [hkind] at hspace
  cases hspace

theorem IsBuffer.asFieldBuffer? {i : SymbolId} (h : x.IsBuffer i) : x.asFieldBuffer? i = none := by
  obtain ⟨t, ht⟩ := h
  obtain ⟨symbol, b, hs, hbuffer, -⟩ := bufferTable?_eq_some.1 ht
  refine Option.eq_none_iff_forall_ne_some.2 fun f hf => ?_
  obtain ⟨_, hs', hkind⟩ := asFieldBuffer?_eq_some.1 hf
  rw [hs] at hs'
  cases hs'
  rw [hkind] at hbuffer
  cases hbuffer

theorem Attachable.isPlain {i : SymbolId} (h : x.Attachable i) : x.IsPlain i := by
  obtain ⟨s, space, hnames⟩ := h
  exact ⟨Attachable.lt_size ⟨s, space, hnames⟩, hnames.asFieldBuffer?⟩

theorem IsBuffer.isPlain {i : SymbolId} (h : x.IsBuffer i) : x.IsPlain i :=
  ⟨h.lt_size, h.asFieldBuffer?⟩

theorem Coherent.body_lt (h : x.Coherent) {i : SymbolId} {body : ScopeId}
    (hr : x.IsRoutine i body) : body.val < x.scopes.size := by
  obtain ⟨symbol, r, hs, hkind, rfl⟩ := hr
  have ok := (h.symbols hs).kind
  rw [hkind] at ok
  obtain ⟨scope, hscope, -⟩ := ok
  exact Arena.lt_size_of_get? hscope

/-- The root scope has a routine, so every scope is in one. -/
theorem Coherent.enclosingRoutine? (h : x.Coherent) {s : ScopeId} (hs : s.val < x.scopes.size) :
    ∃ r body, x.enclosingRoutine? s = some r ∧ x.IsRoutine r body := by
  obtain ⟨root, hroot, hsome⟩ := h.root
  have hmem := h.scopeTree.root_mem s hs
  cases hfind : x.enclosingRoutine? s with
  | none =>
    have hnone := List.findSome?_eq_none_iff.1 hfind rootScope hmem
    rw [hroot] at hnone
    rw [show root.routine = none from hnone] at hsome
    cases hsome
  | some r =>
    obtain ⟨a, -, ha⟩ := List.exists_of_findSome?_eq_some hfind
    obtain ⟨scope, hscope, hr⟩ := Option.bind_eq_some_iff.1 ha
    exact ⟨r, a, rfl, (h.scopes hscope).routine r hr⟩

/-- No block has been bound to the buffer. -/
def Unbound (x : UnitIndex) (b : SymbolId) : Prop :=
  ∀ id binding, x.bufferScopes.get? id = some binding → binding.buffer ≠ b

/-- The two indexes differ in nothing but their symbols and the scopes in which names lead to
them. -/
def Defines (x y : UnitIndex) : Prop := ∃ symbols scopes, y = { x with symbols, scopes }

theorem Defines.refl (x : UnitIndex) : x.Defines x := ⟨_, _, rfl⟩

theorem Defines.trans {y z : UnitIndex} (h : x.Defines y) (k : y.Defines z) : x.Defines z := by
  obtain ⟨symbols, scopes, rfl⟩ := h
  obtain ⟨symbols', scopes', rfl⟩ := k
  exact ⟨symbols', scopes', rfl⟩

theorem Defines.bufferScopes {y : UnitIndex} (h : x.Defines y) :
    y.bufferScopes = x.bufferScopes := by
  obtain ⟨_, _, rfl⟩ := h
  rfl

end UnitIndex

namespace Walk

open UnitIndex Relation

variable (env : Env) (n : NodeId) {w : Walk} {E : Fault → Walk → Prop}

/-! ### Scopes and blocks -/

/-- The current block belongs to the current scope. -/
theorem Sound.current (hs : Sound w) :
    ∃ block, w.index.blocks.get? w.block = some block ∧ block.scope = w.scope :=
  hs.standing.current

theorem Sound.scope_lt (hs : Sound w) : w.scope.val < w.index.scopes.size := by
  obtain ⟨block, hb, hscope⟩ := hs.current
  have hlt := (hs.coherent.blocks hb).scope
  rwa [hscope] at hlt

theorem ends_currentScope {Q : ScopeId → Walk → Prop} (hs : Sound w) :
    Ends currentScope w E Q ↔ Q w.scope w := by
  have hne : w.scopeStack ≠ [] := hs.standing.scopes
  unfold currentScope
  rw [ends_bind, ends_get]
  cases hstack : w.scopeStack with
  | nil => exact absurd hstack hne
  | cons s rest =>
    have hscope : w.scope = s := by simp [Walk.scope, Walk.frame, Frame.scope, hstack]
    rw [hscope]
    exact ends_pure s

theorem ends_currentBlock {Q : BlockId → Walk → Prop} (hs : Sound w) :
    Ends currentBlock w E Q ↔ Q w.block w := by
  have hne : w.blockStack ≠ [] := hs.standing.blocks
  unfold currentBlock
  rw [ends_bind, ends_get]
  cases hstack : w.blockStack with
  | nil => exact absurd hstack hne
  | cons b rest =>
    have hblock : w.block = b := by simp [Walk.block, Walk.frame, Frame.block, hstack]
    rw [hblock]
    exact ends_pure b

theorem ends_currentRoutine (hs : Sound w) :
    Ends currentRoutine w Never fun r w' => w' = w ∧ ∃ body, w.index.IsRoutine r body := by
  obtain ⟨r, body, hr, hroutine⟩ := hs.coherent.enclosingRoutine? hs.scope_lt
  unfold currentRoutine
  rw [ends_bind, ends_theIndex, ends_bind, ends_currentScope hs, hr]
  exact ⟨rfl, body, hroutine⟩

theorem ends_enterScope (hs : Sound w) {s : ScopeId} (h : s.val < w.index.scopes.size) :
    Ends (enterScope s n) w Never fun _ w' => Runs env n w w' ∧ ∃ b, w'.index.IsAround b s ∧
      w'.frame = { w.frame with scopes := s :: w.frame.scopes, blocks := b :: w.frame.blocks } := by
  obtain ⟨scope, hscope⟩ := Arena.exists_get? h
  obtain ⟨block, hblock, hsame, -⟩ := (hs.coherent.scopes hscope).rootBlock
  unfold enterScope
  rw [ends_bind, ends_scopeAt hscope, ends_bind, ends_modify, ends_annotate]
  have standing : Standing w.index
      { w.frame with scopes := s :: w.frame.scopes, blocks := scope.rootBlock :: w.frame.blocks } :=
    { hs.standing with
      scopes := by simp
      blocks := by simp
      current := ⟨block, hblock, hsame⟩ }
  refine ⟨?_, scope.rootBlock, ⟨scope, hscope, rfl⟩, rfl⟩
  exact ((Turn.reframe standing).runs).tail (.inl (.mark (.place (some s) (some scope.rootBlock))))

/-- A scope that is not the body of a routine. -/
theorem ends_openScope (hs : Sound w) {kind : ScopeKind} (free : kind.isBody = false) :
    Ends (openScope kind n) w Never fun s w' => Runs env n w w' ∧ ∃ b, w'.index.IsAround b s ∧
      w'.frame = { w.frame with scopes := s :: w.frame.scopes, blocks := b :: w.frame.blocks } := by
  obtain ⟨outer, houter, hscope⟩ := hs.standing.current
  unfold openScope
  rw [ends_bind, ends_currentScope hs, ends_bind, ends_currentBlock hs, ends_bind, ends_theIndex,
    ends_bind, ends_modifyIndex, ends_bind]
  have opened : Move env n w { w with index := w.index.withScope w.scope w.block kind n none } :=
    .index (.openScope n houter hscope free)
  have hlt : w.index.scopes.next.val <
      (w.index.withScope w.scope w.block kind n none).scopes.size := by
    simp [withScope, Arena.next]
  refine (ends_enterScope env n (opened.sound hs) hlt).imp ?_
  rintro _ w' ⟨runs, b, around, hframe⟩
  exact ⟨.head (.inl opened) runs, b, around, hframe⟩

theorem ends_leaveScope {Q : PUnit → Walk → Prop} {s : ScopeId} {ss : List ScopeId} {b : BlockId}
    {bs : List BlockId} (hscopes : w.scopeStack = s :: ss) (hblocks : w.blockStack = b :: bs)
    (around : w.index.IsAround b s) (hss : ss ≠ []) :
    Ends leaveScope w E Q ↔ Q ⟨⟩ { w with scopeStack := ss, blockStack := bs } := by
  obtain ⟨scope, hscope, hblock⟩ := around
  unfold leaveScope
  rw [ends_bind, ends_get, ends_bind, ends_get, hscopes, hblocks]
  dsimp only
  rw [ends_bind, ends_modify, ends_bind, ends_scopeAt (by exact hscope), ends_bind,
    ends_demand (by simp [hblock]), ends_demand (by simp [hss])]

theorem ends_leaveBlock {Q : PUnit → Walk → Prop} {b : BlockId} {bs : List BlockId}
    (hblocks : w.blockStack = b :: bs) (control : w.index.IsControl b) :
    Ends leaveBlock w E Q ↔ Q ⟨⟩ { w with blockStack := bs } := by
  obtain ⟨block, hblock, hkind⟩ := control
  unfold leaveBlock
  rw [ends_bind, ends_get, hblocks]
  dsimp only
  rw [ends_bind, ends_modify, ends_bind, ends_blockAt (by exact hblock),
    ends_demand (by simp [hkind])]

theorem ends_openBlock (hs : Sound w) {kind : BlockKind} (hkind : kind ≠ .root) :
    Ends (openBlock kind n) w Never fun _ w' => Runs env n w w' ∧ ∃ b, w'.index.IsControl b ∧
      w'.frame = { w.frame with blocks := b :: w.frame.blocks } := by
  obtain ⟨outer, houter, hscope⟩ := hs.standing.current
  obtain ⟨scope, hget⟩ := Arena.exists_get? hs.scope_lt
  have inside : scope.rootBlock ∈ w.index.blockChain w.block :=
    hs.coherent.around_mem _ _ houter ⟨scope, hscope ▸ hget, rfl⟩
  unfold openBlock
  rw [ends_bind, ends_currentBlock hs, ends_bind, ends_currentScope hs, ends_bind,
    ends_scopeAt hget, ends_bind, ends_theIndex, ends_bind, ends_demand (by simpa using inside),
    ends_bind, ends_theIndex, ends_bind, ends_modifyIndex, ends_bind, ends_modify, ends_annotate]
  have opened : Move env n w { w with index := w.index.withBlock w.block w.scope kind n } :=
    .index (.openBlock n houter hscope hkind)
  have hs₁ := opened.sound hs
  have standing := hs₁.standing
  have turned : Standing _ { w.frame with blocks := w.index.blocks.next :: w.frame.blocks } :=
    { standing with
      blocks := by simp
      current := ⟨_, Arena.get?_push_next _ _, rfl⟩ }
  refine ⟨?_, w.index.blocks.next, ⟨_, Arena.get?_push_next _ _, hkind⟩, rfl⟩
  exact ((ReflTransGen.single (.inl opened)).tail (.inr (.reframe turned))).tail
    (.inl (.mark (.place _ (some w.index.blocks.next))))

/-! ### Symbols -/

theorem ends_endDefinition {Q : PUnit → Walk → Prop} {s : SymbolId} {rest : List SymbolId}
    (h : w.openDefinitions = s :: rest) :
    Ends (endDefinition s) w E Q ↔ Q ⟨⟩ { w with openDefinitions := rest } := by
  unfold endDefinition
  rw [ends_bind, ends_get, h]
  simp

/-- A new symbol that no node defines. -/
theorem ends_createSymbol_none {scope : ScopeId} {name : String} {kind : SymbolKind}
    {attached : Bool} {Q : SymbolId → Walk → Prop} :
    Ends (createSymbol scope none name kind attached) w E Q ↔ Q w.index.symbols.next { w with
      index := w.index.withSymbol { name, scope, definitionNode := none, attached, kind } } :=
  Iff.rfl

/-- A new symbol with a node of its own. -/
theorem ends_createSymbol {scope : ScopeId} {kind : SymbolKind} (name : String)
    (hscope : scope.val < w.index.scopes.size) (hkind : w.index.Initial kind)
    (hnode : (env.tree.kind n).isName = false)
    (hinline : env.tree.kind n = .field → scope = w.scope) :
    Ends (createSymbol scope (some n) name kind false) w Never fun s w' => Moves env n w w' ∧
      w'.index.symbols.get? s = some { name, scope, definitionNode := some n, kind } ∧
      s = w.index.symbols.next ∧ w.index.Defines w'.index := by
  unfold createSymbol
  rw [ends_bind, ends_theIndex, ends_bind, ends_modifyIndex, ends_bind, ends_annotate, ends_pure]
  have created : Move env n w { w with
      index := w.index.withSymbol { name, scope, definitionNode := some n, kind } } :=
    .index (.create hscope rfl hkind)
  have hget := Arena.get?_push_next w.index.symbols
    { name, scope, definitionNode := some n, kind }
  refine ⟨.tail (.single created) (.mark (.define (Arena.lt_size_of_get? hget) hnode ?_)), hget,
    rfl, _, _, rfl⟩
  intro hfield
  rw [hinline hfield] at hget ⊢
  refine ⟨w.scope, ?_, mem_scopeChain_self _ _⟩
  exact Option.map_eq_some_iff.2 ⟨_, hget, rfl⟩

theorem namespaceOf_of_space? {kind : SymbolKind} {space : Namespace}
    (h : kind.space? = some space) : namespaceOf kind = pure space := by
  cases kind <;> simp_all [SymbolKind.space?, namespaceOf]

theorem ends_attach_eq {i : SymbolId} {s : Symbol} {space : Namespace} {Q : PUnit → Walk → Prop}
    (coherent : w.index.Coherent) (found : w.index.symbols.get? i = some s)
    (leads : s.kind.space? = some space) :
    Ends (attach i) w E Q ↔ Q ⟨⟩ { w with index := w.index.attached i s space } := by
  have hscope : s.scope.val < w.index.scopes.size := (coherent.symbols found).scope
  unfold attach
  rw [ends_bind, ends_symbolAt found, ends_bind, ends_updateSymbol (Arena.lt_size_of_get? found)]
  by_cases hname : s.name = ""
  · simp only [hname, bne_self_eq_false, Bool.false_eq_true, if_false, ends_pure,
      UnitIndex.attached, if_true]
  · have hbne : (s.name != "") = true := by simpa using hname
    rw [if_pos hbne, namespaceOf_of_space? leads, ends_bind, ends_pure,
      ends_updateScope (by exact hscope)]
    simp only [UnitIndex.attached, if_neg hname]

theorem ends_attach (hs : Sound w) {i : SymbolId} (h : w.index.Attachable i)
    (closed : i ∉ w.openDefinitions) :
    Ends (attach i) w Never fun _ w' => Moves env n w w' ∧ w'.index.IsAttached i ∧
      w.index.Defines w'.index := by
  obtain ⟨-, space, s, hfound, -, hspace⟩ := h
  rw [ends_attach_eq hs.coherent hfound hspace]
  refine ⟨.single (.index (.attach hfound hspace fun _ => closed)),
    ⟨{ s with attached := true }, ?_, rfl⟩, _, _, rfl⟩
  simp [UnitIndex.attached, Arena.get?_update, hfound]

theorem ends_define (hs : Sound w) {kind : SymbolKind} (name : String)
    (hkind : w.index.Initial kind) (hnode : (env.tree.kind n).isName = false) :
    Ends (define n name kind) w Never fun s w' => Runs env n w w' ∧
      w'.frame = { w.frame with definitions := s :: w.frame.definitions } ∧
      w'.index.symbols.get? s =
        some { name, scope := w.scope, definitionNode := some n, kind } ∧
      s ∉ w.frame.definitions := by
  unfold define createSymbol beginDefinition
  rw [ends_bind, ends_currentScope hs, ends_bind, ends_bind, ends_theIndex, ends_bind,
    ends_modifyIndex, ends_bind, ends_annotate, ends_pure, ends_bind, ends_modify, ends_pure]
  have defined : Turn w { w with
      index := w.index.withSymbol { name, scope := w.scope, definitionNode := some n, kind }
      openDefinitions := w.index.symbols.next :: w.openDefinitions } :=
    .define hs.scope_lt rfl hkind rfl
  have hget := Arena.get?_push_next w.index.symbols
    { name, scope := w.scope, definitionNode := some n, kind }
  refine ⟨defined.runs.tail (.inl (.mark (.define (Arena.lt_size_of_get? hget) hnode ?_))), rfl,
    hget, hs.next_notMem⟩
  intro _
  exact ⟨w.scope, Option.map_eq_some_iff.2 ⟨_, hget, rfl⟩, mem_scopeChain_self _ _⟩

theorem ends_noteReference {s : SymbolId} {q : Qualifier} {Q : PUnit → Walk → Prop}
    (h : s.val < w.index.symbols.size) :
    Ends (noteReference s q) w E Q ↔ Q ⟨⟩ { w with index := w.index.counted s q } :=
  ends_updateSymbol h

/-- A revision of a symbol, one for each kind it may be of. -/
theorem ends_revise {s : SymbolId} {f : Symbol → Symbol} (h : s.val < w.index.symbols.size)
    (revision : ∀ v, w.index.symbols.get? s = some v → v.Revision (f v)) :
    Ends (updateSymbol s f) w Never fun _ w' => Moves env n w w' ∧
      w.index.Defines w'.index := by
  obtain ⟨v, hv⟩ := Arena.exists_get? h
  rw [ends_updateSymbol h]
  exact ⟨.single (.index (.revise hv (revision v hv))), _, _, rfl⟩

/-! ### Types -/

/-- Only a symbol whose definition is open is given a type, and only by a clause. -/
theorem ends_updateType (hs : Sound w) {s : SymbolId} {f : ValueType → ValueType}
    (hclause : (env.tree.kind n).isTypeClause) (isOpen : s ∈ w.openDefinitions)
    (proper : ∀ t, t.Proper → (f t).Proper) :
    Ends (updateType s f) w Never fun _ w' => Moves env n w w' := by
  have hlt := hs.standing.definitions s isOpen
  obtain ⟨v, hv⟩ := Arena.exists_get? hlt
  have ok := (hs.coherent.symbols hv).kind
  unfold updateType
  rw [ends_bind, ends_symbolAt hv]
  cases hkind : v.kind with
  | «variable» type =>
    rw [ends_updateSymbol hlt]
    exact .single (.index (.typeVariable isOpen hv hkind _ hclause (proper _)))
  | fieldBuffer b =>
    rw [hkind] at ok
    rw [ends_updateField ok.2.2]
    exact .single (.index (.typeField isOpen (asFieldBuffer?_eq_some.2 ⟨v, hv, hkind⟩)
      (fun field => f field.type) hclause fun _ => proper _))
  | _ => exact .refl

theorem ends_setDataType (hs : Sound w) {s : SymbolId} (type : DataType)
    (className : Option String) (hclause : (env.tree.kind n).isTypeClause)
    (isOpen : s ∈ w.openDefinitions) :
    Ends (setDataType s type className) w Never fun _ w' => Moves env n w w' := by
  refine ends_updateType env n hs hclause isOpen ?_
  intro t _ hnone
  cases hnone

theorem ends_setExtent (hs : Sound w) {s : SymbolId} (extent : Extent)
    (hclause : (env.tree.kind n).isTypeClause) (isOpen : s ∈ w.openDefinitions) :
    Ends (setExtent s extent) w Never fun _ w' => Moves env n w w' := by
  refine ends_updateType env n hs hclause isOpen ?_
  exact fun _ proper => proper

theorem Moves.openDefinitions {w' : Walk} (h : Moves env n w w') :
    w'.openDefinitions = w.openDefinitions :=
  congrArg Frame.definitions h.frame

theorem ends_copyType (hs : Sound w) {source target : SymbolId}
    (hsource : source.val < w.index.symbols.size) (hclause : (env.tree.kind n).isTypeClause)
    (isOpen : target ∈ w.openDefinitions) :
    Ends (copyType source target) w Never fun _ w' => Moves env n w w' := by
  obtain ⟨v, hv⟩ := Arena.exists_get? hsource
  unfold copyType
  rw [ends_bind, ends_theIndex, ends_bind, ends_symbolAt hv]
  dsimp only
  split
  · rw [ends_bind]
    refine (ends_setDataType env n hs _ _ hclause isOpen).imp fun _ w₁ moves => ?_
    have isOpen₁ : target ∈ w₁.openDefinitions := moves.openDefinitions ▸ isOpen
    exact (ends_setExtent env n (moves.runs.sound hs) _ hclause isOpen₁).imp
      fun _ w₂ => moves.trans
  · exact ends_setExtent env n hs _ hclause isOpen

/-! ### Routines and parameters -/

/-- A new routine in the current scope, whose body is entered. -/
theorem ends_openRoutine (hs : Sound w) {kind : ScopeKind} (isBody : kind.isBody = true)
    (name : String) (r : ScopeId → Routine) (body : ∀ s, (r s).body = s)
    (hnode : (env.tree.kind n).isName = false ∧ env.tree.kind n ≠ .field) :
    Ends (do let s ← openScope kind n; createRoutine w.scope n name (r s)) w Never
      fun i w' => Runs env n w w' ∧ ∃ s b, w'.index.IsRoutine i s ∧ w'.index.IsAround b s ∧
        w'.frame =
          { w.frame with scopes := s :: w.frame.scopes, blocks := b :: w.frame.blocks } := by
  obtain ⟨outer, houter, hscope⟩ := hs.standing.current
  have hget := Arena.get?_push_next w.index.scopes
    { parent := some w.scope, kind, node := n, rootBlock := w.index.blocks.next }
  let x := w.index.withRoutine w.scope w.block kind n name (r w.index.scopes.next)
  have routine : Move env n w { w with index := x } :=
    .index (.openRoutine n name houter hscope isBody (body _))
  have entered : Turn { w with index := x } { w with
      index := x
      scopeStack := w.index.scopes.next :: w.scopeStack
      blockStack := w.index.blocks.next :: w.blockStack } :=
    .reframe {
      (routine.sound hs).standing with
      scopes := by simp
      blocks := by simp
      current := ⟨_, Arena.get?_push_next _ _, rfl⟩ }
  have symbol := Arena.get?_push_next w.index.symbols
    { name, scope := w.scope, definitionNode := some n, kind := .routine (r w.index.scopes.next) }
  have runs : Runs env n w { w with
      index := x
      scopeStack := w.index.scopes.next :: w.scopeStack
      blockStack := w.index.blocks.next :: w.blockStack
      notes := (w.notes.update n fun a =>
        { a with scope := some w.index.scopes.next, block := some w.index.blocks.next }).update n
          fun a => { a with symbol := some w.index.symbols.next } } :=
    (((ReflTransGen.single (.inl routine)).tail (.inr entered)).tail
      (.inl (.mark (.place _ _)))).tail
      (.inl (.mark (.define (Arena.lt_size_of_get? symbol) hnode.1 fun h => absurd h hnode.2)))
  unfold openScope enterScope createRoutine createSymbol
  simp only [ends_bind, ends_pure]
  rw [ends_currentScope hs, ends_currentBlock hs]
  simp only [ends_theIndex, ends_modifyIndex, ends_modify, ends_annotate]
  rw [ends_scopeAt hget, ends_updateScope (by simp [body, Arena.next]), body,
    Arena.update_push_next]
  have attachable : x.Attachable w.index.symbols.next := ⟨_, _, _, symbol, rfl, rfl⟩
  refine (ends_attach env n (runs.sound hs) attachable hs.next_notMem).imp ?_
  rintro _ w' ⟨moves, -, -⟩
  have ext := moves.runs.extends
  have isRoutine : x.IsRoutine w.index.symbols.next w.index.scopes.next :=
    ⟨_, _, symbol, rfl, body _⟩
  have around : x.IsAround w.index.blocks.next w.index.scopes.next :=
    ⟨_, Arena.get?_push_next _ _, rfl⟩
  exact ⟨runs.trans moves.runs, _, _, isRoutine.extends ext, around.extends ext, moves.frame⟩

theorem ends_updateRoutine {s : SymbolId} {f : Routine → Routine}
    (h : s.val < w.index.symbols.size)
    (revision : ∀ (v : Symbol) r, v.kind = .routine r →
      v.Revision { v with kind := .routine (f r) }) :
    Ends (updateRoutine s f) w Never fun _ w' => Moves env n w w' ∧
      w.index.Defines w'.index := by
  refine ends_revise env n h fun v _ => ?_
  split
  · rename_i r hkind
    exact revision v r hkind
  · exact .unchanged

/-- A parameter of a routine is attached; to a parameter of an event no name leads. -/
theorem ends_addParameter (hs : Sound w) {s : SymbolId} (mode : ParameterMode) {attaching : Bool}
    (h : attaching = true → w.index.Attachable s ∧ s ∉ w.openDefinitions) :
    Ends (addParameter s mode attaching) w Never fun _ w' => Moves env n w w' ∧
      (attaching = true → w'.index.IsAttached s ∨ w'.index.IsEventParameter s) ∧
      w.index.Defines w'.index := by
  unfold addParameter
  rw [ends_bind, ends_get]
  cases hevent : w.openEvent with
  | some event =>
    obtain ⟨symbol, ps, hsymbol, hkind⟩ := hs.standing.event event hevent
    dsimp only
    rw [ends_updateSymbol (Arena.lt_size_of_get? hsymbol)]
    refine ⟨.single (.index (.revise hsymbol ?_)), fun _ => .inr ?_, _, _, rfl⟩
    · rw [hkind]
      exact .signature hkind s
    · refine ⟨event, { symbol with kind := .event (ps ++ [s]) }, ?_, ?_⟩
      · simp [Arena.get?_update, hsymbol, hkind]
      · simp [Symbol.signature, Symbol.asEvent?]
  | none =>
    have parameter : ∀ w₁, Moves env n w w₁ → Ends (do
        updateRoutine (← currentRoutine) fun r =>
          { r with parameters := r.parameters ++ [(s, mode)] }) w₁ Never
        fun _ w' => Moves env n w₁ w' ∧ w₁.index.Defines w'.index := by
      intro w₁ moves
      rw [ends_bind]
      refine (ends_currentRoutine (moves.runs.sound hs)).imp ?_
      rintro r _ ⟨rfl, body, hroutine⟩
      exact ends_updateRoutine env n hroutine.lt_size fun v r hkind => .parameter hkind _
    cases attaching with
    | false =>
      refine (parameter w .refl).imp ?_
      rintro _ w₁ ⟨moves, defines⟩
      exact ⟨moves, by simp, defines⟩
    | true =>
      simp only [if_true, ends_bind]
      refine (ends_attach env n hs (h rfl).1 (h rfl).2).imp ?_
      rintro _ w₁ ⟨moves₁, attached, defines₁⟩
      have next := parameter w₁ moves₁
      rw [ends_bind] at next
      refine next.imp fun _ w₂ h => h.imp ?_
      rintro _ w₃ ⟨moves₂, defines₂⟩
      exact ⟨moves₁.trans moves₂, fun _ => .inl (attached.extends moves₂.runs.extends),
        defines₁.trans defines₂⟩

/-! ### Bindings -/

theorem ends_addBufferScope {i : BlockId} {block : Block} {buffer : SymbolId}
    {strength : Strength} {Q : BufferScopeId → Walk → Prop}
    (found : w.index.blocks.get? i = some block) :
    Ends (addBufferScope i buffer strength) w E Q ↔
      Q w.index.bufferScopes.next { w with index := w.index.bound i buffer strength } := by
  unfold addBufferScope
  rw [ends_bind, ends_theIndex, ends_bind, ends_modifyIndex, ends_bind,
    ends_updateBlock (by exact Arena.lt_size_of_get? found), ends_pure]
  exact Iff.rfl

/-- What is bound stays bound, as long as the current block is the same. -/
theorem Binds.extends {w' : Walk} {id : BufferScopeId} {b : SymbolId} (h : w.Binds id b)
    (hs : Sound w) (ext : w.index.Extends w'.index) (frame : w'.frame = w.frame) :
    w'.Binds id b := by
  obtain ⟨block, hblock, -⟩ := hs.current
  obtain ⟨binding, hbinding, hbuffer, hchain⟩ := h
  refine ⟨binding, ext.bufferScope hbinding, hbuffer, ?_⟩
  rw [show w'.block = w.block from congrArg Frame.block frame,
    ext.blockChain _ (Arena.lt_size_of_get? hblock)]
  exact hchain

/-- A buffer that has just been bound to the current block or to one around it. -/
theorem binds_bound (hs : Sound w) {i : BlockId} {buffer : SymbolId} {strength : Strength}
    (ext : w.index.Extends (w.index.bound i buffer strength))
    (hi : i ∈ w.index.blockChain w.block) :
    Binds { w with index := w.index.bound i buffer strength } w.index.bufferScopes.next buffer := by
  obtain ⟨block, hblock, -⟩ := hs.current
  refine ⟨⟨i, buffer, strength⟩, Arena.get?_push_next _ _, rfl, ?_⟩
  show i ∈ (w.index.bound i buffer strength).blockChain w.block
  rw [ext.blockChain _ (Arena.lt_size_of_get? hblock)]
  exact hi

theorem Sound.binds_of_mem (hs : Sound w) {id : BufferScopeId} {buffer : SymbolId}
    (hid : id ∈ w.index.enclosingBufferScopes w.block)
    (hbuffer : w.index.scopesBuffer buffer id = true) : w.Binds id buffer := by
  obtain ⟨j, hj, hmem⟩ := List.mem_flatMap.1 hid
  unfold bufferScopesOf at hmem
  split at hmem
  · rename_i block hblock
    obtain ⟨binding, hbinding, hsame⟩ := (hs.coherent.blocks hblock).bufferScopes id hmem
    simp only [scopesBuffer, hbinding, decide_eq_true_eq] at hbuffer
    exact ⟨binding, hbinding, hbuffer, hsame ▸ hj⟩
  · simp at hmem

/-- A buffer that a reference or a weak scope can be bound to. -/
structure Offers (w : Walk) (buffer : SymbolId) : Prop where
  isBuffer : w.index.IsBuffer buffer
  sees : w.index.Sees w.scope buffer
  attached : w.index.IsAttached buffer

theorem Offers.bindable {buffer : SymbolId} {block : Block} {strength : Strength}
    (h : w.Offers buffer) (scope : block.scope = w.scope)
    (alone : ∀ j ∈ block.bufferScopes, w.index.scopesBuffer buffer j = false)
    (takes : strength = .reference → block.scopesRecords) :
    w.index.Bindable block buffer strength where
  isBuffer := h.isBuffer
  sees := scope ▸ h.sees
  offered := .inl h.attached
  alone _ := alone
  takes := takes

theorem ends_bindReference (hs : Sound w) {buffer : SymbolId} (offers : w.Offers buffer) :
    Ends (bindReference buffer) w Never fun id w' => Moves env n w w' ∧ w'.Binds id buffer := by
  obtain ⟨block, hblock, hscope⟩ := hs.current
  obtain ⟨j, target, hj, htarget, hsame⟩ := hs.coherent.blockTree.recordBlock? _ _ hblock
  unfold bindReference
  rw [ends_bind, ends_currentBlock hs, ends_bind, ends_theIndex]
  cases hfind : w.index.enclosingBufferScope? w.block buffer with
  | some id =>
    exact ⟨.refl, hs.binds_of_mem (List.mem_of_find?_eq_some hfind) (List.find?_some hfind)⟩
  | none =>
    have hmem : j ∈ w.index.blockChain w.block := List.mem_of_find?_eq_some hj
    have takes : target.scopesRecords = true := by
      simpa [htarget] using List.find?_some hj
    have alone : ∀ k ∈ target.bufferScopes, w.index.scopesBuffer buffer k = false := by
      intro k hk
      have hnone := List.find?_eq_none.1 hfind k
        (List.mem_flatMap.2 ⟨j, hmem, by simpa [bufferScopesOf, htarget] using hk⟩)
      simpa using hnone
    have bound : w.index.Change w.openDefinitions (env.tree.kind n).isTypeClause
        (env.tree.kind n).shapesTable (w.index.bound j buffer .reference) :=
      .bind htarget (offers.bindable (hsame.trans hscope) alone fun _ => takes)
    rw [show w.index.recordBlock? w.block = some j from hj]
    dsimp only
    rw [ends_addBufferScope htarget]
    exact ⟨.single (.index bound), binds_bound hs bound.extends hmem⟩

theorem mem_blockChain_self (x : UnitIndex) (i : BlockId) : i ∈ x.blockChain i := by
  rw [blockChain]
  split
  · split <;> exact List.mem_cons_self
  · exact List.mem_cons_self

theorem ends_bindWeakly (hs : Sound w) {buffer : SymbolId} (offers : w.Offers buffer) :
    Ends (bindWeakly buffer) w Never fun id w' => Moves env n w w' ∧ w'.Binds id buffer := by
  obtain ⟨block, hblock, hscope⟩ := hs.current
  have here := mem_blockChain_self w.index w.block
  unfold bindWeakly
  rw [ends_bind, ends_currentBlock hs, ends_bind, ends_theIndex]
  cases hfind : (w.index.bufferScopesOf w.block).find? (w.index.scopesBuffer buffer) with
  | some id =>
    refine ⟨.refl, hs.binds_of_mem ?_ (List.find?_some hfind)⟩
    exact List.mem_flatMap.2 ⟨_, here, List.mem_of_find?_eq_some hfind⟩
  | none =>
    have alone : ∀ k ∈ block.bufferScopes, w.index.scopesBuffer buffer k = false := by
      intro k hk
      have hnone := List.find?_eq_none.1 hfind k (by simpa [bufferScopesOf, hblock] using hk)
      simpa using hnone
    have bound : w.index.Change w.openDefinitions (env.tree.kind n).isTypeClause
        (env.tree.kind n).shapesTable (w.index.bound w.block buffer .weak) :=
      .bind hblock (offers.bindable hscope alone (by simp))
    dsimp only
    rw [ends_addBufferScope hblock]
    exact ⟨.single (.index bound), binds_bound hs bound.extends here⟩

end Walk

end AblResolve
