import AblResolve.Proofs.Operations
import AblResolve.Walk.Lookup
/-!
What names are found to stand for. A lookup from the current scope leads to symbols that are in
sight from it. Buffers bound to the blocks around are no exception, since a buffer is bound only
where it is in sight.
-/
namespace AblResolve

theorem Text.item_mem_of_matchName {α : Type} {name : String} {candidates : List (String × α)}
    {mayAbbreviate : Bool} {found : Text.Match α}
    (h : Text.matchName name candidates mayAbbreviate = some found) :
    found.item ∈ candidates.map (·.2) := by
  unfold Text.matchName at h
  split at h
  · rename_i hfind
    cases h
    exact List.mem_map_of_mem (List.mem_of_find?_eq_some hfind)
  · split at h
    · split at h
      · rename_i candidate item hfilter
        cases h
        have hmem : (candidate, item) ∈ candidates.filter fun c => abbreviates name c.1 := by
          rw [hfilter]
          exact List.mem_singleton_self _
        exact List.mem_map_of_mem (List.mem_filter.1 hmem).1
      · cases h
    · cases h

namespace UnitIndex

variable {x : UnitIndex}

/-! ### Names and bindings lead to what is in sight -/

theorem Names.isBuffer {s : ScopeId} {space : Namespace} {i : SymbolId} (h : x.Names s space i)
    (hspace : space = .buffer ∨ space = .table) : x.IsBuffer i := by
  obtain ⟨symbol, hs, -, hkind⟩ := h
  cases hk : symbol.kind with
  | tableBuffer b => exact ⟨b.table, bufferTable?_eq_some.2 ⟨symbol, b, hs, hk, rfl⟩⟩
  | _ =>
    rw [hk] at hkind
    rcases hspace with rfl | rfl <;> simp [SymbolKind.space?] at hkind

theorem Names.owner? {s : ScopeId} {space : Namespace} {i : SymbolId} (h : x.Names s space i) :
    x.owner? i = some s := by
  obtain ⟨symbol, hs, hscope, -⟩ := h
  exact Option.map_eq_some_iff.2 ⟨symbol, hs, hscope⟩

/-- A field that a name stands for is one of the table. -/
theorem hasField_of_fieldNamed? {t : TableId} {name : String} {found : Text.Match FieldId}
    (hfind : x.fieldNamed? t name = some found) : x.HasField t found.item := by
  obtain ⟨table, htable, hmatch⟩ := Option.bind_eq_some_iff.1 hfind
  obtain ⟨c, hc, hitem⟩ := List.mem_map.1 (Text.item_mem_of_matchName hmatch)
  obtain ⟨f, hf, hmap⟩ := List.mem_filterMap.1 hc
  obtain ⟨field, hfield, rfl⟩ := Option.map_eq_some_iff.1 hmap
  exact ⟨table, htable, hitem ▸ hf⟩

theorem carries_of_bufferField? {buffer : SymbolId} {name : String} {found : Text.Match FieldId}
    (hfind : x.bufferField? buffer name = some found) : x.Carries buffer found.item := by
  obtain ⟨t, ht, hnamed⟩ := Option.bind_eq_some_iff.1 hfind
  exact ⟨t, ht, hasField_of_fieldNamed? hnamed⟩

namespace Coherent

variable (h : x.Coherent)
include h

theorem names_of_findIn? {s : ScopeId} {space : Namespace} {name : String} {i : SymbolId}
    (hfind : x.findIn? s space name = some i) : x.Names s space i := by
  obtain ⟨scope, hscope, hi⟩ := Option.bind_eq_some_iff.1 hfind
  obtain ⟨entry, hmem, hspace, hsymbol⟩ := NameTable.exists_mem_of_find? hi
  have hnames := (h.scopes hscope).names entry hmem
  rwa [hspace, hsymbol] at hnames

/-- Names lead to attached symbols only. -/
theorem attached_of_findIn? {s : ScopeId} {space : Namespace} {name : String} {i : SymbolId}
    (hfind : x.findIn? s space name = some i) : x.IsAttached i := by
  obtain ⟨scope, hscope, hi⟩ := Option.bind_eq_some_iff.1 hfind
  obtain ⟨entry, hmem, -, hsymbol⟩ := NameTable.exists_mem_of_find? hi
  exact hsymbol ▸ (h.scopes hscope).attached entry hmem

theorem resolve? {s : ScopeId} {space : Namespace} {name : String} {i : SymbolId}
    (hresolve : x.resolve? s space name = some i) :
    x.Sees s i ∧ x.IsAttached i ∧ ∃ o, x.Names o space i := by
  obtain ⟨o, ho, hfind⟩ := List.exists_of_findSome?_eq_some hresolve
  have hnames := h.names_of_findIn? hfind
  exact ⟨⟨o, hnames.owner?, ho⟩, h.attached_of_findIn? hfind, o, hnames⟩

theorem sees_of_owner_root {s : ScopeId} (hs : s.val < x.scopes.size) {i : SymbolId}
    (howner : x.owner? i = some rootScope) : x.Sees s i :=
  ⟨rootScope, howner, h.scopeTree.root_mem s hs⟩

theorem visibleBuffers {s : ScopeId} {i : SymbolId} (hi : i ∈ x.visibleBuffers s) :
    x.IsBuffer i ∧ x.Sees s i ∧ x.IsAttached i := by
  obtain ⟨o, ho, hmem⟩ := List.mem_flatMap.1 hi
  split at hmem
  · rename_i scope hscope
    have ok := h.scopes hscope
    have named : ∀ space, i ∈ (scope.names.inNamespace space).map (·.symbol) →
        x.Names o space i ∧ x.IsAttached i := by
      intro space hin
      obtain ⟨entry, hentry, rfl⟩ := List.mem_map.1 hin
      obtain ⟨hentry, hspace⟩ := List.mem_filter.1 hentry
      have hnames := ok.names entry hentry
      rw [of_decide_eq_true hspace] at hnames
      exact ⟨hnames, ok.attached entry hentry⟩
    simp only [Scope.buffers, List.mem_append] at hmem
    rcases hmem with (hmem | hmem) | hmem
    · obtain ⟨hnames, hattached⟩ := named .buffer hmem
      exact ⟨hnames.isBuffer (.inl rfl), ⟨o, hnames.owner?, ho⟩, hattached⟩
    · obtain ⟨hnames, hattached⟩ := named .table hmem
      exact ⟨hnames.isBuffer (.inr rfl), ⟨o, hnames.owner?, ho⟩, hattached⟩
    · obtain ⟨p, hp, rfl⟩ := List.mem_map.1 hmem
      obtain ⟨htable, howner, hattached⟩ := ok.unnamed p hp
      exact ⟨⟨p.1, htable⟩, ⟨o, howner, ho⟩, hattached⟩
  · simp at hmem

/-- A buffer bound to an enclosing block is in sight from the scope of the block. -/
theorem enclosingBufferScopes {b : BlockId} {block : Block} (hb : x.blocks.get? b = some block)
    {id : BufferScopeId} {binding : BufferScope} (hid : id ∈ x.enclosingBufferScopes b)
    (hbinding : x.bufferScopes.get? id = some binding) :
    x.IsBuffer binding.buffer ∧ x.Sees block.scope binding.buffer := by
  obtain ⟨i, hi, hmem⟩ := List.mem_flatMap.1 hid
  obtain ⟨outer, houter, hchain⟩ := h.blockTree.scope_mem h.scopeTree b block hb i hi
  simp only [bufferScopesOf, houter] at hmem
  obtain ⟨binding', hbinding', hsame⟩ := (h.blocks houter).bufferScopes id hmem
  rw [hbinding] at hbinding'
  cases hbinding'
  have ok := h.bufferScopes hbinding
  obtain ⟨target, htarget, hsees⟩ := ok.sees
  rw [hsame, houter] at htarget
  cases htarget
  exact ⟨ok.isBuffer, hsees.of_mem h.scopeTree (h.blocks hb).scope hchain⟩

/-- The fields that are reached through a buffer are attached when they are created. -/
theorem attached_of_asFieldBuffer? {s : SymbolId} {f : FieldBuffer}
    (hf : x.asFieldBuffer? s = some f) : x.IsAttached s := by
  obtain ⟨symbol, hs, hkind⟩ := asFieldBuffer?_eq_some.1 hf
  exact ⟨symbol, hs, (h.symbols hs).reached f hkind⟩

/-- No buffer has reached a field that is not there yet. -/
theorem field?_next {buffer : SymbolId} {owner : Symbol} {b : TableBuffer}
    (found : x.symbols.get? buffer = some owner) (kind : owner.kind = .tableBuffer b) :
    b.field? x.fields.next = none := by
  rw [TableBuffer.field?, Option.map_eq_none_iff, List.find?_eq_none]
  intro p hp
  have ok := (h.symbols found).kind
  rw [kind] at ok
  obtain ⟨symbol, hsymbol, hreach⟩ := asFieldBuffer?_eq_some.1 (ok.2 p hp).1
  have reached := (h.symbols hsymbol).kind
  rw [hreach] at reached
  have hlt : p.1.val < x.fields.size := reached.2.2
  simp only [decide_eq_true_eq]
  rintro heq
  rw [heq] at hlt
  exact Nat.lt_irrefl _ hlt

theorem indexNamed?_lt {t : TableId} {name : String} {i : IndexId}
    (hfind : x.indexNamed? t name = some i) : i.val < x.indexes.size := by
  obtain ⟨table, htable, hi⟩ := Option.bind_eq_some_iff.1 hfind
  exact (h.tables htable).indexes i (List.mem_of_find?_eq_some hi)

end Coherent

end UnitIndex

namespace Walk

open UnitIndex

variable (env : Env) (n : NodeId) {w : Walk} {E : Fault → Walk → Prop}

/-! ### Buffers -/

theorem ends_namedBuffer? {Q : Option SymbolId → Walk → Prop} (hs : Sound w) (name : String) :
    Ends (namedBuffer? name) w E Q ↔ Q (w.index.resolve? w.scope .buffer name) w := by
  unfold namedBuffer?
  rw [ends_bind, ends_theIndex, ends_bind, ends_currentScope hs, ends_pure]

theorem ends_tempTableBuffer? {Q : Option SymbolId → Walk → Prop} (name : String) :
    Ends (tempTableBuffer? name) w E Q ↔ Q (w.index.findIn? rootScope .table name) w :=
  Iff.rfl

theorem ends_schemaTable (hs : Sound w) (e : Catalog.Entry) :
    Ends (schemaTable e) w Never fun t w' => Moves env n w w' ∧ w'.index.IsSchema t := by
  unfold schemaTable
  rw [ends_bind, ends_theIndex]
  cases htable : w.index.schemaTable? e with
  | some t =>
    obtain ⟨p, hp, rfl⟩ := Option.map_eq_some_iff.1 htable
    exact ⟨.refl, hs.coherent.schemaTables p (List.mem_of_find?_eq_some hp)⟩
  | none =>
    refine ⟨.single (.index (.load e htable)), ?_⟩
    exact isSchema_iff.2 ⟨_, Arena.get?_push_next _ _, rfl⟩

theorem ends_defaultBuffer (hs : Sound w) {t : TableId} (ht : w.index.IsSchema t) :
    Ends (defaultBuffer t) w Never fun b w' => Moves env n w w' ∧
      w'.index.bufferTable? b = some t ∧ w'.index.owner? b = some rootScope ∧
      w'.index.IsAttached b := by
  obtain ⟨root, hroot, -⟩ := hs.coherent.root
  obtain ⟨table, htable, schema⟩ := isSchema_iff.1 ht
  unfold defaultBuffer
  rw [ends_bind, ends_scopeAt hroot]
  cases hbuffer : root.unnamedBuffer? t with
  | some b =>
    obtain ⟨p, hp, rfl⟩ := Option.map_eq_some_iff.1 hbuffer
    have hkey : p.1 = t := by simpa using List.find?_some hp
    have ok := (hs.coherent.scopes hroot).unnamed p (List.mem_of_find?_eq_some hp)
    exact ⟨.refl, hkey ▸ ok.1, ok.2⟩
  | none =>
    have created : Move env n w
        { w with index := w.index.withDefaultBuffer t table.name } :=
      .index (.createDefault htable hroot hbuffer schema)
    dsimp only
    rw [ends_bind, ends_tableAt htable, ends_bind, ends_createSymbol_none, ends_bind,
      ends_updateScope (by exact Arena.lt_size_of_get? hroot), ends_pure]
    refine ⟨.single created, ?_⟩
    simp [withSymbol, UnitIndex.bufferTable?, UnitIndex.owner?, IsAttached, Symbol.asTableBuffer?]

theorem ends_schemaBuffer? (hs : Sound w) (name : String) :
    Ends (schemaBuffer? env name) w Never fun found w' => Moves env n w w' ∧
      (∀ b, found = some b → w'.Offers b) ∧
      (found = none ↔ env.catalog.table? name = none) := by
  unfold schemaBuffer?
  cases hentry : env.catalog.table? name with
  | none => exact ⟨.refl, by simp, by simp⟩
  | some e =>
    dsimp only
    rw [ends_bind]
    refine (ends_schemaTable env n hs e).imp ?_
    rintro t w₁ ⟨moves₁, ht⟩
    have hs₁ := moves₁.runs.sound hs
    rw [ends_bind]
    refine (ends_defaultBuffer env n hs₁ ht).imp ?_
    rintro b w₂ ⟨moves₂, htable, howner, hattached⟩
    have hs₂ := moves₂.runs.sound hs₁
    refine ⟨moves₁.trans moves₂, fun b' hb' => ?_, by simp⟩
    cases hb'
    exact ⟨⟨t, htable⟩, hs₂.coherent.sees_of_owner_root hs₂.scope_lt howner, hattached⟩

/-- The name of a record leads nowhere. -/
def Missing (env : Env) (w : Walk) (name : String) : RecordLookup → Prop
  | .buffer => (∀ s ∈ w.index.scopeChain w.scope, w.index.findIn? s .buffer name = none) ∧
      w.index.findIn? rootScope .table name = none ∧ env.catalog.table? name = none
  | .tempTable => w.index.findIn? rootScope .table name = none
  | .schemaTable => env.catalog.table? name = none

theorem ends_findBuffer? (hs : Sound w) (name : String) (lookup : RecordLookup) :
    Ends (findBuffer? env name lookup) w Never fun found w' => Moves env n w w' ∧
      (∀ b, found = some b → w'.Offers b) ∧
      (found = none ↔ Missing env w name lookup) := by
  have hroot : ∀ b, w.index.findIn? rootScope .table name = some b → w.Offers b := by
    intro b hb
    have hnames := hs.coherent.names_of_findIn? hb
    exact ⟨hnames.isBuffer (.inr rfl), hs.coherent.sees_of_owner_root hs.scope_lt hnames.owner?,
      hs.coherent.attached_of_findIn? hb⟩
  cases lookup with
  | buffer =>
    unfold findBuffer?
    rw [ends_bind, ends_namedBuffer? hs]
    cases hresolve : w.index.resolve? w.scope .buffer name with
    | some b =>
      obtain ⟨hsees, hattached, o, hnames⟩ := hs.coherent.resolve? hresolve
      refine ⟨.refl, fun b' hb' => ?_, by simp, fun missing => ?_⟩
      · cases hb'
        exact ⟨hnames.isBuffer (.inl rfl), hsees, hattached⟩
      · rw [UnitIndex.resolve?, List.findSome?_eq_none_iff.2 missing.1] at hresolve
        cases hresolve
    | none =>
      have hchain := List.findSome?_eq_none_iff.1 hresolve
      dsimp only
      rw [ends_bind, ends_tempTableBuffer?]
      cases htemp : w.index.findIn? rootScope .table name with
      | some b =>
        refine ⟨.refl, fun b' hb' => ?_, by simp, fun missing => ?_⟩
        · cases hb'
          exact hroot b htemp
        · rw [missing.2.1] at htemp
          cases htemp
      | none =>
        refine (ends_schemaBuffer? env n hs name).imp ?_
        rintro found w' ⟨moves, hfound, hnone⟩
        exact ⟨moves, hfound, hnone.trans ⟨fun h => ⟨hchain, htemp, h⟩, fun h => h.2.2⟩⟩
  | tempTable =>
    unfold findBuffer?
    rw [ends_tempTableBuffer?]
    exact ⟨.refl, hroot, Iff.rfl⟩
  | schemaTable => exact ends_schemaBuffer? env n hs name

/-! ### Fields -/

/-- A field that the buffer has not reached yet. -/
theorem ends_fieldBuffer_new {buffer : SymbolId} {owner : Symbol} {b : TableBuffer} {f : FieldId}
    {field : Field} {Q : SymbolId → Walk → Prop}
    (found : w.index.symbols.get? buffer = some owner) (kind : owner.kind = .tableBuffer b)
    (new : b.field? f = none) (hasField : w.index.fields.get? f = some field) :
    Ends (fieldBuffer buffer f) w E Q ↔ Q w.index.symbols.next
      { w with index := w.index.reached buffer owner b f field.name } := by
  have hbuffer : owner.asTableBuffer? = some b := by rw [Symbol.asTableBuffer?, kind]
  have hlt := Nat.lt_succ_of_lt (Arena.lt_size_of_get? found)
  unfold fieldBuffer
  rw [ends_bind, ends_symbolAt found, hbuffer]
  dsimp only
  rw [new]
  dsimp only
  rw [ends_bind, ends_fieldAt hasField, ends_bind, ends_createSymbol_none, ends_bind,
    ends_updateSymbol (by simpa [withSymbol] using hlt), ends_pure]
  rfl

theorem Moves.carries {w' : Walk} {buffer : SymbolId} {f : FieldId} (moves : Moves env n w w')
    (h : w.index.Carries buffer f) : w'.index.Carries buffer f := by
  obtain ⟨t, ht, hf⟩ := h
  exact ⟨t, moves.runs.extends.bufferTable? ht, moves.hasField hf⟩

theorem ends_fieldBuffer (hs : Sound w) {buffer : SymbolId} {f : FieldId}
    (carries : w.index.Carries buffer f) :
    Ends (fieldBuffer buffer f) w Never fun s w' => Moves env n w w' ∧
      w'.index.asFieldBuffer? s = some ⟨buffer, f⟩ ∧
      w'.index.owner? s = w'.index.owner? buffer := by
  obtain ⟨t, ht, hf⟩ := carries
  obtain ⟨owner, b, howner, hkind, htable⟩ := bufferTable?_eq_some.1 ht
  obtain ⟨field, hfield⟩ := Arena.exists_get? (hs.coherent.hasField_lt hf)
  cases hfound : b.field? f with
  | some s =>
    obtain ⟨p, hp, rfl⟩ := Option.map_eq_some_iff.1 hfound
    have hkey : p.1 = f := by simpa using List.find?_some hp
    have hbuffer : owner.asTableBuffer? = some b := by rw [Symbol.asTableBuffer?, hkind]
    unfold fieldBuffer
    rw [ends_bind, ends_symbolAt howner, hbuffer]
    dsimp only
    rw [hfound]
    have ok := (hs.coherent.symbols howner).kind
    rw [hkind] at ok
    obtain ⟨hreach, hsame⟩ := ok.2 p (List.mem_of_find?_eq_some hp)
    refine ⟨.refl, hkey ▸ hreach, hsame.trans ?_⟩
    simp [UnitIndex.owner?, howner]
  | none =>
    have reached : Move env n w { w with index := w.index.reached buffer owner b f field.name } :=
      .index (.reach howner hkind hfound hfield (htable ▸ hf))
    have hne : buffer ≠ w.index.symbols.next := by
      rintro rfl
      exact Nat.lt_irrefl _ (Arena.lt_size_of_get? howner)
    rw [ends_fieldBuffer_new howner hkind hfound hfield]
    refine ⟨.single reached, ?_⟩
    simp [UnitIndex.reached, UnitIndex.asFieldBuffer?, UnitIndex.owner?, Arena.get?_update, hne,
      Symbol.asFieldBuffer?, Arena.get?_push_of_get? howner]

/-- A field of a buffer is in sight where the buffer is. -/
theorem sees_of_owner {x : UnitIndex} {a : ScopeId} {b s : SymbolId} (h : x.Sees a b)
    (hsame : x.owner? s = x.owner? b) : x.Sees a s := by
  obtain ⟨o, ho, hmem⟩ := h
  exact ⟨o, hsame.trans ho, hmem⟩

theorem Moves.sees {w' : Walk} {i : SymbolId} (moves : Moves env n w w') (hs : Sound w)
    (h : w.index.Sees w.scope i) : w'.index.Sees w'.scope i := by
  rw [moves.scope]
  exact h.extends moves.runs.extends hs.coherent.scopeTree hs.scope_lt

/-- What is on offer in one state is on offer in the states that moves lead to. -/
theorem Offers.moves {w' : Walk} {buffer : SymbolId} (h : w.Offers buffer)
    (moves : Moves env n w w') (hs : Sound w) : w'.Offers buffer where
  isBuffer := h.isBuffer.extends moves.runs.extends
  sees := Moves.sees env n moves hs h.sees
  attached := h.attached.extends moves.runs.extends

/-- A name is a field of one buffer, or the table has no such field and nothing changes. -/
theorem ends_fieldOfBuffer? (hs : Sound w) {buffer : SymbolId} (name : String) :
    Ends (fieldOfBuffer? buffer name) w Never fun r w' => Moves env n w w' ∧
      (∀ found, r = some found → found.bufferScope = none ∧
        ∃ f, w'.index.asFieldBuffer? found.symbol = some ⟨buffer, f⟩ ∧
          w'.index.Carries buffer f) ∧
      (r = none → w' = w ∧ w.index.bufferField? buffer (Text.lastSegment name) = none) := by
  unfold fieldOfBuffer?
  rw [ends_bind, ends_theIndex]
  cases hfind : w.index.bufferField? buffer (Text.lastSegment name) with
  | none => exact ⟨.refl, by simp, fun _ => ⟨rfl, rfl⟩⟩
  | some found =>
    have carries := carries_of_bufferField? hfind
    dsimp only
    rw [ends_bind]
    refine (ends_fieldBuffer env n hs carries).imp ?_
    rintro s w' ⟨moves, hreach, -⟩
    refine ⟨moves, fun r hr => ?_, by simp⟩
    cases hr
    exact ⟨rfl, found.item, hreach, Moves.carries env n moves carries⟩

/-- A lookup without a hint. -/
theorem Leads.unhinted {name : String} {h : TableHint} {s : SymbolId}
    {bufferScope : Option BufferScopeId} (leads : w.Leads name .any s bufferScope)
    (unhinted : w.hinted? h = none) : w.Leads name h s bufferScope where
  reaches := by
    have sees : w.index.Sees w.scope s := leads.reaches
    unfold Reaches
    rw [unhinted]
    exact sees
  attached := leads.attached
  offered f hf := (leads.offered f hf).imp id fun ⟨_, rest⟩ => ⟨unhinted, rest⟩
  bound := leads.bound
  carried := leads.carried

/-- A buffer whose fields can be found under a name. -/
structure Serves (w : Walk) (name : String) (buffer : SymbolId) : Prop where
  isBuffer : w.index.IsBuffer buffer
  sees : w.index.Sees w.scope buffer
  offered : w.index.IsAttached buffer ∨ Text.splitLast? name = none ∧
    w.index.IsEventParameter buffer ∧ ∃ id, w.Binds id buffer

theorem Offers.serves {buffer : SymbolId} (h : w.Offers buffer) (name : String) :
    w.Serves name buffer :=
  ⟨h.isBuffer, h.sees, .inl h.attached⟩

/-- Reaching a field of a buffer in sight, with the binding of the buffer if there is one. -/
theorem ends_reachField (hs : Sound w) {name : String} {buffer : SymbolId} {f : FieldId}
    {bufferScope : Option BufferScopeId} (serves : w.Serves name buffer)
    (carries : w.index.Carries buffer f)
    (bound : ∀ id, bufferScope = some id → w.Binds id buffer) :
    Ends (fieldBuffer buffer f) w Never fun s w' => Moves env n w w' ∧
      w'.Leads name .any s bufferScope := by
  refine (ends_fieldBuffer env n hs carries).imp ?_
  rintro s w' ⟨moves, hreach, hsame⟩
  have ext := moves.runs.extends
  have keep : ∀ id, w.Binds id buffer → w'.Binds id buffer :=
    fun id h => h.extends hs ext moves.frame
  refine ⟨moves, ?_, ?_, ?_, ?_, ?_⟩
  · exact sees_of_owner (Moves.sees env n moves hs serves.sees) hsame
  · exact (moves.runs.sound hs).coherent.attached_of_asFieldBuffer? hreach
  · intro f' hf'
    rw [hreach] at hf'
    cases hf'
    rcases serves.offered with attached | ⟨bare, parameter, id, binds⟩
    · exact .inl (attached.extends ext)
    · exact .inr ⟨rfl, bare, parameter.extends ext, id, keep id binds⟩
  · exact fun id hid => ⟨_, hreach, keep id (bound id hid)⟩
  · intro f' hf'
    rw [hreach] at hf'
    cases hf'
    exact Moves.carries env n moves carries

/-- Binding a buffer in sight, if the lookup binds, before it goes on with `k`. -/
theorem ends_bindIf {α : Type} {Q : α → Walk → Prop} (hs : Sound w) {buffer : SymbolId}
    (binding : Bool) (offers : w.Offers buffer) {k : Option BufferScopeId → WalkM α}
    (next : ∀ bound w', Moves env n w w' → (∀ id, bound = some id → w'.Binds id buffer) →
      Ends (k bound) w' E Q) :
    Ends (if binding = true then (some <$> bindReference buffer) >>= k else pure none >>= k)
      w E Q := by
  cases binding with
  | true =>
    rw [if_pos rfl, ends_bind, ends_map]
    refine (ends_bindReference env n hs offers).imp ?_
    rintro id w' ⟨moves, binds⟩
    refine next (some id) w' moves fun id' hid => ?_
    cases hid
    exact binds
  | false => exact next none w .refl (by simp)

theorem ends_lookupQualified? (hs : Sound w) {name bufferName fieldName : String}
    (binding : Bool) :
    Ends (lookupQualified? env bufferName fieldName binding) w Never fun r w' =>
      Moves env n w w' ∧
        ∀ found, r = some found → w'.Leads name .any found.symbol found.bufferScope := by
  unfold lookupQualified?
  rw [ends_bind]
  refine (ends_findBuffer? env n hs bufferName .buffer).imp ?_
  rintro r w₁ ⟨moves₁, hfound, -⟩
  cases r with
  | none => exact ⟨moves₁, by simp⟩
  | some buffer =>
    have offers := hfound buffer rfl
    have hs₁ := moves₁.runs.sound hs
    dsimp only
    rw [ends_bind, ends_theIndex]
    cases hfield : w₁.index.bufferField? buffer fieldName with
    | none => exact ⟨moves₁, by simp⟩
    | some field =>
      have carries := carries_of_bufferField? hfield
      dsimp only
      refine ends_bindIf env n hs₁ binding offers fun bound w₂ moves₂ binds => ?_
      have hs₂ := moves₂.runs.sound hs₁
      rw [ends_bind]
      refine (ends_reachField env n hs₂ ((offers.moves env n moves₂ hs₁).serves name)
        (Moves.carries env n moves₂ carries) binds).imp ?_
      rintro s w₃ ⟨moves₃, leads⟩
      refine ⟨(moves₁.trans moves₂).trans moves₃, fun found hfound => ?_⟩
      cases hfound
      exact leads

theorem Sound.plainSymbol? (hs : Sound w) {name : String} {s : SymbolId}
    (h : plainSymbol? w.index w.scope name = some s) :
    w.index.Sees w.scope s ∧ w.index.IsAttached s ∧ w.index.asFieldBuffer? s = none := by
  have found : ∀ {space : Namespace}, w.index.resolve? w.scope space name = some s →
      w.index.Sees w.scope s ∧ w.index.IsAttached s ∧ w.index.asFieldBuffer? s = none := by
    intro space hresolve
    obtain ⟨hsees, hattached, o, hnames⟩ := hs.coherent.resolve? hresolve
    exact ⟨hsees, hattached, hnames.asFieldBuffer?⟩
  simp only [Walk.plainSymbol?, Option.or_eq_some_iff] at h
  rcases h with h | ⟨-, h | ⟨-, h⟩⟩
  · exact found h
  · obtain ⟨kind, -, hkind⟩ := List.exists_of_findSome?_eq_some h
    exact found hkind
  · exact found h

theorem Sound.boundField? (hs : Sound w) {name : String} {buffer : SymbolId}
    {found : Text.Match FieldId} {id : BufferScopeId} (bare : Text.splitLast? name = none)
    (h : boundField? w.index w.block name = some (buffer, found, id)) :
    w.Serves name buffer ∧ w.Binds id buffer ∧ w.index.Carries buffer found.item := by
  obtain ⟨block, hblock, hscope⟩ := hs.current
  obtain ⟨id', hid, hbind⟩ := List.exists_of_findSome?_eq_some h
  obtain ⟨binding, hbinding, hmap⟩ := Option.bind_eq_some_iff.1 hbind
  obtain ⟨field, hfield, heq⟩ := Option.map_eq_some_iff.1 hmap
  cases heq
  obtain ⟨hbuffer, hsees⟩ := hs.coherent.enclosingBufferScopes hblock hid hbinding
  rw [hscope] at hsees
  have binds : w.Binds id binding.buffer := hs.binds_of_mem hid (by simp [scopesBuffer, hbinding])
  refine ⟨⟨hbuffer, hsees, ?_⟩, binds, carries_of_bufferField? hfield⟩
  exact (hs.coherent.bufferScopes hbinding).offered.elim .inl fun h => .inr ⟨bare, h, id, binds⟩

theorem Sound.visibleField? (hs : Sound w) {name : String} {buffer : SymbolId}
    {found : Text.Match FieldId}
    (h : visibleField? w.index w.scope name = some (buffer, found)) :
    w.Offers buffer ∧ w.index.Carries buffer found.item := by
  obtain ⟨b, hb, hmap⟩ := List.exists_of_findSome?_eq_some h
  obtain ⟨field, hfield, heq⟩ := Option.map_eq_some_iff.1 hmap
  cases heq
  obtain ⟨hbuffer, hsees, hattached⟩ := hs.coherent.visibleBuffers hb
  exact ⟨⟨hbuffer, hsees, hattached⟩, carries_of_bufferField? hfield⟩

theorem ends_lookupBare? (hs : Sound w) {name : String} (bare : Text.splitLast? name = none)
    (binding : Bool) :
    Ends (lookupBare? name binding) w Never fun r w' => Moves env n w w' ∧
      ∀ found, r = some found → w'.Leads name .any found.symbol found.bufferScope := by
  unfold lookupBare?
  rw [ends_bind, ends_theIndex, ends_bind, ends_currentScope hs]
  cases hplain : Walk.plainSymbol? w.index w.scope name with
  | some s =>
    obtain ⟨sees, attached, other⟩ := hs.plainSymbol? hplain
    refine ⟨.refl, fun found hfound => ?_⟩
    cases hfound
    exact ⟨sees, attached, by simp [other], by simp, by simp [other]⟩
  | none =>
    dsimp only
    rw [ends_bind, ends_currentBlock hs]
    cases hbound : Walk.boundField? w.index w.block name with
    | some p =>
      obtain ⟨buffer, field, id⟩ := p
      obtain ⟨serves, binds, carries⟩ := hs.boundField? bare hbound
      have bound : ∀ i, (if binding then some id else none) = some i → w.Binds i buffer := by
        intro i hi
        split at hi <;> cases hi
        exact binds
      dsimp only
      rw [ends_bind]
      refine (ends_reachField env n hs serves carries bound).imp ?_
      rintro s w₁ ⟨moves, leads⟩
      refine ⟨moves, fun found hfound => ?_⟩
      cases hfound
      exact leads
    | none =>
      dsimp only
      cases hvisible : Walk.visibleField? w.index w.scope name with
      | none => exact ⟨.refl, by simp⟩
      | some p =>
        obtain ⟨buffer, field⟩ := p
        obtain ⟨offers, carries⟩ := hs.visibleField? hvisible
        dsimp only
        refine ends_bindIf env n hs binding offers fun bound w₁ moves₁ binds => ?_
        have hs₁ := moves₁.runs.sound hs
        rw [ends_bind]
        refine (ends_reachField env n hs₁ ((offers.moves env n moves₁ hs).serves name)
          (Moves.carries env n moves₁ carries) binds).imp ?_
        rintro s w₂ ⟨moves₂, leads⟩
        refine ⟨moves₁.trans moves₂, fun found hfound => ?_⟩
        cases hfound
        exact leads

/-- A name looked up from the current scope leads to something in sight. -/
theorem ends_lookupField? (hs : Sound w) (name : String) (binding : Bool) :
    Ends (lookupField? env name binding) w Never fun r w' => Moves env n w w' ∧
      ∀ found, r = some found → w'.Leads name .any found.symbol found.bufferScope := by
  unfold lookupField?
  split
  · exact ends_lookupQualified? env n hs binding
  · rename_i bare
    exact ends_lookupBare? env n hs bare binding

end Walk

end AblResolve
