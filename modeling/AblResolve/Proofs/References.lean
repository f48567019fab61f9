import AblResolve.Proofs.Moves
import AblResolve.Walk.Enter.References
/-!
References. When the walk finds what a name stands for, it writes that on the node and counts the
use in one go; these are the only moments at which counts change, apart from a handle that is
passed for output, whose use is counted once more. A field that is looked up in vain is noted as
unresolved instead.
-/
namespace AblResolve

namespace UnitIndex

variable {x : UnitIndex}

/-- The index with one more use of a symbol. -/
def counted (x : UnitIndex) (s : SymbolId) (q : Qualifier) : UnitIndex :=
  { x with symbols := x.symbols.update s (·.noteReference q) }

/-- The index with one more use of what a field stands for, and of the buffer it is a field of. -/
def countedField (x : UnitIndex) (s : SymbolId) (q : Qualifier) : UnitIndex :=
  match x.asFieldBuffer? s with
  | some f => (x.counted s q).counted f.buffer q
  | none => x.counted s q

theorem extends_counted (x : UnitIndex) (s : SymbolId) (q : Qualifier) :
    x.Extends (x.counted s q) :=
  { Extends.refl x with
    symbols := Arena.keeps_update fun _ _ => rfl
    attached := Arena.retains_update fun _ _ h => h
    signatures := fun _ => Arena.retains_update fun _ _ h => h }

theorem extends_countedField (x : UnitIndex) (s : SymbolId) (q : Qualifier) :
    x.Extends (x.countedField s q) := by
  unfold countedField
  split
  · exact (extends_counted _ _ _).trans (extends_counted _ _ _)
  · exact extends_counted _ _ _

theorem Coherent.counted (h : x.Coherent) (s : SymbolId) (q : Qualifier) :
    (x.counted s q).Coherent := by
  have ext := extends_counted x s q
  refine h.grow ext h.root (.same _ _) (.same _ _) (.same _ _) (Arena.renews_update ?_)
    (.same _ _) (.same _ _) h.schemaTables
  intro v hv
  have ok := (h.symbols hv).extends ext
  exact ⟨ok.scope, ok.kind, ok.reached⟩

theorem Coherent.countedField (h : x.Coherent) (s : SymbolId) (q : Qualifier) :
    (x.countedField s q).Coherent := by
  unfold UnitIndex.countedField
  split
  · exact (h.counted _ _).counted _ _
  · exact h.counted _ _

theorem tables_countedField (x : UnitIndex) (s : SymbolId) (q : Qualifier) :
    (x.countedField s q).tables = x.tables := by
  unfold countedField
  split <;> rfl

theorem references_counted {s : SymbolId} (h : s.val < x.symbols.size) (q : Qualifier)
    (i : SymbolId) : (x.counted s q).references i =
      if s = i then (x.references i).note q else x.references i := by
  obtain ⟨symbol, hs⟩ := Arena.exists_get? h
  simp only [references, referencesIn, counted, Arena.get?_update]
  split
  · rename_i hi
    subst hi
    simp [hs, Symbol.noteReference]
  · rfl

end UnitIndex

namespace Walk

open UnitIndex

/-- A use of a name by the node it stands on, or by the node above it for a member. -/
inductive Reference where
  | record (q : Qualifier)
  | field (q : Qualifier) (hint : TableHint)
  | widget
  | member (identifier : NodeId) (q : Qualifier)

/-- The buffer that a hint points to. -/
def hinted? (w : Walk) : TableHint → Option SymbolId
  | .any => none
  | .last => w.lastTable
  | .previous => w.previousTable

theorem Runs.hinted? {env : Env} {n : NodeId} {w w' : Walk} (runs : Runs env n w w')
    (h : TableHint) : w'.hinted? h = w.hinted? h := by
  induction runs with
  | refl => rfl
  | tail _ step ih =>
    rw [← ih]
    rcases step with move | turn
    · cases move <;> rfl
    · cases turn <;> rfl

/-- How a node has been told that it is used. -/
def qualifierAt (w : Walk) (n : NodeId) : Qualifier := (w.qualifiers.find? n).getD .ref

/-- Where a node has been told that its name is looked up. -/
def hintAt (w : Walk) (n : NodeId) : TableHint := (w.hints.find? n).getD .any

/-- What a field may be found to stand for: something in sight, or a field of the buffer that a
hint points to. -/
def Reaches (w : Walk) (h : TableHint) (s : SymbolId) : Prop :=
  match w.hinted? h with
  | none => w.index.Sees w.scope s
  | some b => ∃ f, w.index.asFieldBuffer? s = some ⟨b, f⟩

/-- The binding is one of the buffer to the current block or to one around it. -/
def Binds (w : Walk) (id : BufferScopeId) (b : SymbolId) : Prop :=
  ∃ binding, w.index.bufferScopes.get? id = some binding ∧ binding.buffer = b ∧
    binding.block ∈ w.index.blockChain w.block

/-- The uses of a record that bind its buffer to a block. -/
def bindingUses : List Qualifier := [.ref, .refUp, .updating, .init, .initWeak]

/-- What is known of the symbol that a field is found to stand for, and of the binding of its
buffer. Names lead to the buffer, but for one case: the parameter of an event is found by a bare
name where it is bound to a block around. -/
structure Leads (w : Walk) (name : String) (h : TableHint) (s : SymbolId)
    (bufferScope : Option BufferScopeId) : Prop where
  reaches : w.Reaches h s
  attached : w.index.IsAttached s
  offered : ∀ f, w.index.asFieldBuffer? s = some f → w.index.IsAttached f.buffer ∨
    w.hinted? h = none ∧ Text.splitLast? name = none ∧ w.index.IsEventParameter f.buffer ∧
      ∃ id, w.Binds id f.buffer
  bound : ∀ id, bufferScope = some id →
    ∃ f, w.index.asFieldBuffer? s = some f ∧ w.Binds id f.buffer
  carried : ∀ f, w.index.asFieldBuffer? s = some f → w.index.Carries f.buffer f.field

/-- One reference made at node `n`. -/
inductive Refer (env : Env) (n : NodeId) (w : Walk) : Reference → Walk → Prop
  | record {q : Qualifier} {b : SymbolId} {t : TableId} {table : Table}
      (bufferScope : Option BufferScopeId) (abbreviated : Bool)
      (kind : env.tree.kind n = .record) (isBuffer : w.index.bufferTable? b = some t)
      (found : w.index.tables.get? t = some table) (sees : w.index.Sees w.scope b)
      (attached : w.index.IsAttached b) (binds : bufferScope.isSome ↔ q ∈ bindingUses)
      (bound : ∀ id, bufferScope = some id → w.Binds id b) :
      Refer env n w (.record q) { w with
        index := w.index.counted b q
        notes := w.notes.update n fun a => { a with
          symbol := some b
          qualifier := some q
          store := some table.kind.store
          bufferScope
          abbreviated := a.abbreviated || abbreviated }
        previousTable := w.lastTable
        lastTable := some b }
  | field {q : Qualifier} {h : TableHint} {s : SymbolId} (store : Option Store)
      (bufferScope : Option BufferScopeId) (unqualified abbreviated : Bool)
      (kind : env.tree.kind n = .field) (leads : w.Leads (env.tree.text n) h s bufferScope) :
      Refer env n w (.field q h) { w with
        index := w.index.countedField s q
        notes := w.notes.update n fun a => { a with
          symbol := some s
          qualifier := some q
          store
          bufferScope
          unqualified := a.unqualified || unqualified
          abbreviated := a.abbreviated || abbreviated } }
  | widget {s : SymbolId} (kind : env.tree.kind n = .widgetName)
      (sees : w.index.Sees w.scope s) (attached : w.index.IsAttached s)
      (plain : w.index.asFieldBuffer? s = none) :
      Refer env n w .widget { w with
        index := w.index.counted s .symbol
        notes := w.notes.update n fun a => { a with symbol := some s } }
  | member {c : NodeId} {q : Qualifier} {s : SymbolId} (kind : env.tree.kind n = .widgetAttribute)
      (child : c ∈ env.tree.children n) (identifier : env.tree.kind c = .identifier)
      (sees : w.index.Sees w.scope s) (attached : w.index.IsAttached s)
      (plain : w.index.asFieldBuffer? s = none) :
      Refer env n w (.member c q) { w with
        index := w.index.counted s q
        notes := w.notes.update c fun a => { a with symbol := some s, qualifier := some q } }

/-- The entry for a field that has been looked up in vain. -/
def missedField (env : Env) (n : NodeId) (w : Walk) : Unresolved :=
  ⟨n, env.tree.text n, w.scope⟩

/-- A field at node `n` has been looked up in vain. If a hint had pointed to a buffer, that is
reported, too. -/
inductive Miss (env : Env) (n : NodeId) (w : Walk) (h : TableHint) : Walk → Prop
  | anywhere (kind : env.tree.kind n = .field) (unhinted : w.hinted? h = none) :
      Miss env n w h { w with index := { w.index with
        unresolved := w.index.unresolved ++ [missedField env n w] } }
  | inTable {b : SymbolId} {symbol : Symbol} (kind : env.tree.kind n = .field)
      (hinted : w.hinted? h = some b) (found : w.index.symbols.get? b = some symbol)
      (strict : isTolerant env n = false) :
      Miss env n w h { w with index := { w.index with
        diagnostics := w.index.diagnostics.add
          (.unresolvedField (env.tree.text n) symbol.name (env.tree.location n))
        unresolved := w.index.unresolved ++ [missedField env n w] } }

section Preservation

variable {env : Env} {n m : NodeId} {w w' : Walk} {ref : Reference}

theorem Sound.counted (hs : Sound w) (s : SymbolId) (q : Qualifier) :
    Sound { w with index := w.index.counted s q } :=
  hs.reindex (extends_counted _ _ _) (hs.coherent.counted _ _) hs.unfrozen

theorem Sound.countedField (hs : Sound w) (s : SymbolId) (q : Qualifier) :
    Sound { w with index := w.index.countedField s q } := by
  refine hs.reindex (extends_countedField _ _ _) (hs.coherent.countedField _ _) fun d hd => ?_
  unfold Unfrozen
  rw [tables_countedField]
  exact hs.unfrozen d hd

theorem Refer.frame (h : Refer env n w ref w') : w'.frame = w.frame := by
  cases h <;> rfl

theorem Refer.extends (h : Refer env n w ref w') : w.index.Extends w'.index := by
  cases h with
  | field => exact extends_countedField _ _ _
  | _ => exact extends_counted _ _ _

theorem Refer.sound (h : Refer env n w ref w') (hs : Sound w) : Sound w' := by
  cases h with
  | record bufferScope abbreviated kind isBuffer found sees attached =>
    refine { hs.counted _ _ with lastTable := ?_, previousTable := (hs.counted _ _).lastTable }
    intro b hb
    cases hb
    exact ⟨IsBuffer.extends (extends_counted _ _ _) ⟨_, isBuffer⟩,
      attached.extends (extends_counted _ _ _)⟩
  | field => exact { hs.countedField _ _ with }
  | widget => exact { hs.counted _ _ with }
  | member => exact { hs.counted _ _ with }

theorem Refer.untold (h : Refer env n w ref w') (untold : w.Untold m) : w'.Untold m := by
  cases h <;> exact untold

/-- A reference writes the symbol on one node: on `n` itself, or on an identifier below it. -/
theorem Refer.writes (h : Refer env n w ref w') :
    ∃ k f s, w'.notes = w.notes.update k f ∧ (∀ a, (f a).symbol = some s) ∧
      (k = n ∨ k ∈ env.tree.children n ∧ env.tree.kind k = .identifier) ∧
      s.val < w.index.symbols.size ∧
      (w.index.Sees w.scope s ∨
        ∃ q h, ref = .field q h ∧ env.tree.kind n = .field ∧ w.Reaches h s) := by
  cases h with
  | record bufferScope abbreviated kind isBuffer found sees =>
    exact ⟨n, _, _, rfl, fun _ => rfl, .inl rfl, sees.lt_size, .inl sees⟩
  | field store bufferScope unqualified abbreviated kind leads =>
    exact ⟨n, _, _, rfl, fun _ => rfl, .inl rfl, leads.attached.lt_size,
      .inr ⟨_, _, rfl, kind, leads.reaches⟩⟩
  | widget kind sees =>
    exact ⟨n, _, _, rfl, fun _ => rfl, .inl rfl, sees.lt_size, .inl sees⟩
  | member kind child identifier sees =>
    exact ⟨_, _, _, rfl, fun _ => rfl, .inr ⟨child, identifier⟩, sees.lt_size, .inl sees⟩

theorem Refer.apart (h : Refer env n w ref w') (hne : m ≠ n)
    (hchild : m ∉ env.tree.children n ∨ env.tree.kind m ≠ .identifier) :
    w'.notes.get m = w.notes.get m := by
  obtain ⟨k, f, s, hnotes, -, hk, -⟩ := h.writes
  rw [hnotes]
  refine Annotations.get_update_of_ne ?_ _ _
  rintro rfl
  rcases hk with hk | ⟨hk, hkind⟩
  · exact hne hk
  · exact hchild.elim (· hk) (· hkind)

theorem Refer.inRange (h : Refer env n w ref w') (hw : w.InRange) : w'.InRange := by
  intro m s hs
  obtain ⟨k, f, s', hnotes, hf, -, hlt, -⟩ := h.writes
  apply h.extends.lt_symbols
  rw [hnotes] at hs
  rcases symbol_update hs with ⟨rfl, hnew⟩ | ⟨-, hold⟩
  · rw [hf] at hnew
    cases hnew
    exact hlt
  · exact hw m s hold

theorem Miss.notes {h : TableHint} (miss : Miss env n w h w') : w'.notes = w.notes := by
  cases miss <;> rfl

theorem Miss.frame {h : TableHint} (miss : Miss env n w h w') : w'.frame = w.frame := by
  cases miss <;> rfl

theorem Miss.extends {h : TableHint} (miss : Miss env n w h w') : w.index.Extends w'.index := by
  cases miss <;> exact { Extends.refl w.index with }

/-- Findings and unresolved names are beside everything else. -/
theorem Sound.noted (hs : Sound w) (unresolved : List Unresolved) (diagnostics : Diagnostics) :
    Sound { w with index := { w.index with unresolved, diagnostics } } := by
  have hc := hs.coherent
  have ext : w.index.Extends { w.index with unresolved, diagnostics } :=
    { Extends.refl w.index with }
  exact hs.reindex ext (hc.grow ext hc.root (.same _ _) (.same _ _) (.same _ _) (.same _ _)
    (.same _ _) (.same _ _) hc.schemaTables) hs.unfrozen

theorem Miss.sound {h : TableHint} (miss : Miss env n w h w') (hs : Sound w) : Sound w' := by
  cases miss <;> exact hs.noted _ _

theorem Miss.untold {h : TableHint} (miss : Miss env n w h w') (untold : w.Untold m) :
    w'.Untold m := by
  cases miss <;> exact untold

theorem Miss.inRange {h : TableHint} (miss : Miss env n w h w') (hw : w.InRange) : w'.InRange := by
  intro m s hs
  rw [miss.notes] at hs
  exact miss.extends.lt_symbols (hw m s hs)

end Preservation

/-! ### Entering a node -/

/-- Whether a reference is made as the node has been told. -/
def Expects (w : Walk) (n : NodeId) : Reference → Prop
  | .record q => q = w.qualifierAt n
  | .field q h => q = w.qualifierAt n ∧ h = w.hintAt n
  | .widget => True
  | .member _ q => q = w.qualifierAt n

/-- All that entering node `n` can do: moves and turns, or moves and one reference or one vain
lookup. -/
inductive Enters (env : Env) (n : NodeId) (w w' : Walk) : Prop
  | plain (runs : Runs env n w w')
  | refer {v : Walk} {ref : Reference} (moves : Moves env n w v) (expects : w.Expects n ref)
      (refer : Refer env n v ref w')
  | miss {v : Walk} (moves : Moves env n w v) (miss : Miss env n v (w.hintAt n) w')

section Enters

variable {env : Env} {n m : NodeId} {w w' : Walk}

theorem Enters.extends (h : Enters env n w w') : w.index.Extends w'.index := by
  cases h with
  | plain runs => exact runs.extends
  | refer moves _ refer => exact moves.runs.extends.trans refer.extends
  | miss moves miss => exact moves.runs.extends.trans miss.extends

theorem Enters.sound (h : Enters env n w w') (hs : Sound w) : Sound w' := by
  cases h with
  | plain runs => exact runs.sound hs
  | refer moves _ refer => exact refer.sound (moves.runs.sound hs)
  | miss moves miss => exact miss.sound (moves.runs.sound hs)

theorem Enters.inRange (h : Enters env n w w') (hw : w.InRange) : w'.InRange := by
  cases h with
  | plain runs => exact runs.inRange hw
  | refer moves _ refer => exact refer.inRange (moves.runs.inRange hw)
  | miss moves miss => exact miss.inRange (moves.runs.inRange hw)

theorem Enters.untold (h : Enters env n w w') (untold : w.Untold m) : w'.Untold m := by
  cases h with
  | plain runs => exact runs.untold untold
  | refer moves _ refer => exact refer.untold (moves.runs.untold untold)
  | miss moves miss => exact miss.untold (moves.runs.untold untold)

theorem Enters.apart (h : Enters env n w w') (hne : m ≠ n) (hchild : m ∉ env.tree.children n) :
    w'.notes.get m = w.notes.get m := by
  cases h with
  | plain runs => exact runs.apart hne
  | refer moves _ refer => rw [refer.apart hne (.inl hchild), moves.runs.apart hne]
  | miss moves miss => rw [miss.notes, moves.runs.apart hne]

/-- Entering a node writes nothing on the nodes below it, members apart. -/
theorem Enters.kept (h : Enters env n w w') (hne : m ≠ n) (hm : env.tree.kind m ≠ .identifier) :
    w'.notes.get m = w.notes.get m := by
  cases h with
  | plain runs => exact runs.apart hne
  | refer moves _ refer => rw [refer.apart hne (.inr hm), moves.runs.apart hne]
  | miss moves miss => rw [miss.notes, moves.runs.apart hne]

end Enters

end Walk

end AblResolve
