import AblResolve.Index.Loading
/-!
What an index never gives up. Collections only grow, and each element has a part that is fixed
when it is added. `Extends` compares two indexes by these parts alone, so whatever is said in
their terms at one moment of a walk still holds at every later one.
-/
namespace AblResolve

namespace Arena

variable {e : Entity} {α β : Type} {fixed : α → β} {a b c : Arena e α}

/-- `b` has every element of `a`, with the same fixed part. -/
def Keeps (fixed : α → β) (a b : Arena e α) : Prop :=
  ∀ (i : Id e) (v : α), a.get? i = some v → ∃ v', b.get? i = some v' ∧ fixed v' = fixed v

theorem Keeps.refl (fixed : α → β) (a : Arena e α) : Keeps fixed a a :=
  fun _ v h => ⟨v, h, rfl⟩

theorem Keeps.trans (h : Keeps fixed a b) (k : Keeps fixed b c) : Keeps fixed a c := by
  intro i v hv
  obtain ⟨v', hv', hfix⟩ := h i v hv
  obtain ⟨v'', hv'', hfix'⟩ := k i v' hv'
  exact ⟨v'', hv'', hfix'.trans hfix⟩

theorem keeps_push (fixed : α → β) (a : Arena e α) (x : α) : Keeps fixed a (a.push x) :=
  fun _ v h => ⟨v, get?_push_of_get? h, rfl⟩

theorem keeps_pushAll (fixed : α → β) (a : Arena e α) (xs : List α) :
    Keeps fixed a (a.pushAll xs) :=
  fun _ v h => ⟨v, by rw [get?_pushAll_of_lt (lt_size_of_get? h), h], rfl⟩

theorem keeps_update {i : Id e} {f : α → α}
    (h : ∀ v, a.get? i = some v → fixed (f v) = fixed v) : Keeps fixed a (a.update i f) := by
  intro j v hv
  rw [get?_update]
  split
  · rename_i hij
    subst hij
    exact ⟨f v, by rw [hv]; rfl, h v hv⟩
  · exact ⟨v, hv, rfl⟩

/-- Every element of `a` that satisfies `p` still does in `b`. -/
def Retains (p : α → Prop) (a b : Arena e α) : Prop :=
  ∀ (i : Id e) (v : α), a.get? i = some v → p v → ∃ v', b.get? i = some v' ∧ p v'

theorem Retains.refl (p : α → Prop) (a : Arena e α) : Retains p a a :=
  fun _ v h hp => ⟨v, h, hp⟩

theorem Retains.trans {p : α → Prop} (h : Retains p a b) (k : Retains p b c) :
    Retains p a c := by
  intro i v hv hp
  obtain ⟨v', hv', hp'⟩ := h i v hv hp
  exact k i v' hv' hp'

theorem retains_push (p : α → Prop) (a : Arena e α) (x : α) : Retains p a (a.push x) :=
  fun _ v h hp => ⟨v, get?_push_of_get? h, hp⟩

theorem retains_update {p : α → Prop} {i : Id e} {f : α → α}
    (h : ∀ v, a.get? i = some v → p v → p (f v)) : Retains p a (a.update i f) := by
  intro j v hv hp
  rw [get?_update]
  split
  · rename_i hij
    subst hij
    exact ⟨f v, by rw [hv]; rfl, h v hv hp⟩
  · exact ⟨v, hv, hp⟩

theorem exists_get? {i : Id e} (h : i.val < a.size) : ∃ v, a.get? i = some v :=
  Option.isSome_iff_exists.1 (get?_isSome_iff.2 h)

theorem Keeps.lt_size (h : Keeps fixed a b) {i : Id e} (hi : i.val < a.size) :
    i.val < b.size := by
  obtain ⟨v, hv⟩ := exists_get? hi
  obtain ⟨v', hv', -⟩ := h i v hv
  exact lt_size_of_get? hv'

theorem Keeps.size_le (h : Keeps fixed a b) : a.size ≤ b.size :=
  Nat.le_of_not_lt fun hlt => Nat.lt_irrefl _ (h.lt_size (i := ⟨b.size⟩) hlt)

/-- An element after `push`: the new one, or one that was there. -/
theorem get?_push_cases {x v : α} {i : Id e} (h : (a.push x).get? i = some v) :
    i = a.next ∧ v = x ∨ a.get? i = some v := by
  rw [get?_push] at h
  split at h
  · rename_i hi
    cases h
    exact .inl ⟨hi, rfl⟩
  · exact .inr h

/-- An element after `pushAll`: one of the new ones, or one that was there. -/
theorem get?_pushAll_cases {xs : List α} {v : α} {i : Id e}
    (h : (a.pushAll xs).get? i = some v) :
    a.get? i = some v ∨ v ∈ xs ∧ a.size ≤ i.val := by
  rw [get?_pushAll] at h
  split at h
  · exact .inl h
  · exact .inr ⟨List.mem_of_getElem? h, by omega⟩

/-- An element after `update`: the changed one, or one that was there. -/
theorem get?_update_cases {f : α → α} {v : α} {i j : Id e}
    (h : (a.update i f).get? j = some v) :
    i = j ∧ (∃ old, a.get? i = some old ∧ v = f old) ∨ i ≠ j ∧ a.get? j = some v := by
  rw [get?_update] at h
  split at h
  · rename_i hij
    subst hij
    obtain ⟨old, hold, rfl⟩ := Option.map_eq_some_iff.1 h
    exact .inl ⟨rfl, old, hold, rfl⟩
  · rename_i hij
    exact .inr ⟨hij, h⟩

theorem update_push_next (a : Arena e α) (x : α) (f : α → α) :
    (a.push x).update a.next f = a.push (f x) := by
  obtain ⟨items⟩ := a
  simp only [update, push, next, size, mk.injEq]
  apply Array.ext_getElem?
  intro i
  simp only [Array.getElem?_modify, Array.getElem?_push]
  by_cases h : items.size = i
  · simp [h]
  · simp [h, Ne.symm h]

theorem val_lt_of_mem_nextIds {k : Nat} {i : Id e} (h : i ∈ a.nextIds k) :
    a.size ≤ i.val ∧ i.val < a.size + k := by
  simp only [nextIds, List.mem_map, List.mem_range] at h
  obtain ⟨j, hj, rfl⟩ := h
  exact ⟨Nat.le_add_right _ _, Nat.add_lt_add_left hj _⟩

end Arena

/-! ### The fixed parts -/

/-- The kinds of scopes that are the body of a routine. -/
def ScopeKind.isBody : ScopeKind → Bool
  | .trigger | .catch => false
  | _ => true

/-- The root scope may turn from that of a program into that of a class. -/
def Scope.fixed (s : Scope) : Option ScopeId × NodeId × BlockId × Option SymbolId × Bool :=
  (s.parent, s.node, s.rootBlock, s.routine, s.kind.isBody)

def Block.fixed (b : Block) : Block := { b with bufferScopes := [], hasStrongScope := false }

/-- The kind of a symbol without what clauses and references add to it. -/
def SymbolKind.fixed : SymbolKind → SymbolKind
  | .variable _ => .variable {}
  | .routine r => .routine { kind := r.kind, body := r.body }
  | .tableBuffer b => .tableBuffer { b with fields := [] }
  | .fieldBuffer f => .fieldBuffer f
  | .event _ => .event []
  | .browse _ => .browse {}
  | .widget kind => .widget kind

/-- The parameters in the signature of an event; other symbols have none. -/
def Symbol.signature (s : Symbol) : List SymbolId := s.asEvent?.getD []

/-- The node that defines a variable is fixed; a routine moves from its declaration to its
body. -/
def Symbol.fixed (s : Symbol) : String × ScopeId × SymbolKind × Option NodeId :=
  (s.name, s.scope, s.kind.fixed, s.asVariable?.bind fun _ => s.definitionNode)

def Table.fixed (t : Table) : Table := { t with fields := [], indexes := [], frozen := false }

def Field.fixed (f : Field) : String := f.name

def TableIndex.fixed (i : TableIndex) : TableIndex := { i with fields := [] }

namespace UnitIndex

variable {x y z : UnitIndex}

/-- `y` has all that `x` has. -/
structure Extends (x y : UnitIndex) : Prop where
  scopes : x.scopes.Keeps Scope.fixed y.scopes
  blocks : x.blocks.Keeps Block.fixed y.blocks
  bufferScopes : x.bufferScopes.Keeps id y.bufferScopes
  symbols : x.symbols.Keeps Symbol.fixed y.symbols
  attached : x.symbols.Retains (·.attached = true) y.symbols
  signatures : ∀ p, x.symbols.Retains (p ∈ ·.signature) y.symbols
  tables : x.tables.Keeps Table.fixed y.tables
  fields : x.fields.Keeps Field.fixed y.fields
  indexes : x.indexes.Keeps TableIndex.fixed y.indexes

theorem Extends.refl (x : UnitIndex) : x.Extends x :=
  ⟨.refl _ _, .refl _ _, .refl _ _, .refl _ _, .refl _ _, fun _ => .refl _ _, .refl _ _,
    .refl _ _, .refl _ _⟩

theorem Extends.trans (h : x.Extends y) (k : y.Extends z) : x.Extends z :=
  ⟨h.scopes.trans k.scopes, h.blocks.trans k.blocks, h.bufferScopes.trans k.bufferScopes,
    h.symbols.trans k.symbols, h.attached.trans k.attached,
    fun p => (h.signatures p).trans (k.signatures p), h.tables.trans k.tables,
    h.fields.trans k.fields, h.indexes.trans k.indexes⟩

/-- The scope a symbol is defined in. -/
def owner? (x : UnitIndex) (s : SymbolId) : Option ScopeId :=
  (x.symbols.get? s).map (·.scope)

/-- The field buffer that a symbol is. -/
def asFieldBuffer? (x : UnitIndex) (s : SymbolId) : Option FieldBuffer :=
  (x.symbols.get? s).bind (·.asFieldBuffer?)

/-- The node that defines a variable. -/
def variableNode? (x : UnitIndex) (s : SymbolId) : Option NodeId :=
  (x.symbols.get? s).bind fun symbol => symbol.asVariable?.bind fun _ => symbol.definitionNode

theorem bufferTable?_eq_some {s : SymbolId} {t : TableId} :
    x.bufferTable? s = some t ↔
      ∃ symbol b, x.symbols.get? s = some symbol ∧ symbol.kind = .tableBuffer b ∧ b.table = t := by
  simp only [bufferTable?, Option.map_eq_some_iff, Option.bind_eq_some_iff]
  constructor
  · rintro ⟨b, ⟨symbol, hs, hb⟩, ht⟩
    refine ⟨symbol, b, hs, ?_, ht⟩
    unfold Symbol.asTableBuffer? at hb
    split at hb
    · rename_i hkind
      cases hb
      exact hkind
    · cases hb
  · rintro ⟨symbol, b, hs, hkind, ht⟩
    exact ⟨b, ⟨symbol, hs, by rw [Symbol.asTableBuffer?, hkind]⟩, ht⟩

theorem asFieldBuffer?_eq_some {s : SymbolId} {f : FieldBuffer} :
    x.asFieldBuffer? s = some f ↔
      ∃ symbol, x.symbols.get? s = some symbol ∧ symbol.kind = .fieldBuffer f := by
  simp only [asFieldBuffer?, Option.bind_eq_some_iff]
  constructor
  · rintro ⟨symbol, hs, hf⟩
    refine ⟨symbol, hs, ?_⟩
    unfold Symbol.asFieldBuffer? at hf
    split at hf
    · rename_i hkind
      cases hf
      exact hkind
    · cases hf
  · rintro ⟨symbol, hs, hkind⟩
    exact ⟨symbol, hs, by rw [Symbol.asFieldBuffer?, hkind]⟩

namespace Extends

variable (h : x.Extends y)
include h

theorem lt_scopes {s : ScopeId} (hs : s.val < x.scopes.size) : s.val < y.scopes.size :=
  h.scopes.lt_size hs

theorem lt_symbols {s : SymbolId} (hs : s.val < x.symbols.size) : s.val < y.symbols.size :=
  h.symbols.lt_size hs

theorem parentScope? {s : ScopeId} (hs : s.val < x.scopes.size) :
    y.parentScope? s = x.parentScope? s := by
  obtain ⟨a, ha⟩ := Arena.exists_get? hs
  obtain ⟨b, hb, hfix⟩ := h.scopes s a ha
  have hparent : b.parent = a.parent := congrArg Prod.fst hfix
  simp only [UnitIndex.parentScope?, ha, hb, Option.bind_some, hparent]

theorem parentBlock? {i : BlockId} (hi : i.val < x.blocks.size) :
    y.parentBlock? i = x.parentBlock? i := by
  obtain ⟨a, ha⟩ := Arena.exists_get? hi
  obtain ⟨b, hb, hfix⟩ := h.blocks i a ha
  have hparent : b.fixed.parent = a.fixed.parent := congrArg Block.parent hfix
  simp only [UnitIndex.parentBlock?, ha, hb, Option.bind_some]
  exact hparent

theorem owner? {s : SymbolId} (hs : s.val < x.symbols.size) : y.owner? s = x.owner? s := by
  obtain ⟨a, ha⟩ := Arena.exists_get? hs
  obtain ⟨b, hb, hfix⟩ := h.symbols s a ha
  have hscope : b.scope = a.scope := congrArg (fun p => p.2.1) hfix
  simp only [UnitIndex.owner?, ha, hb, Option.map_some, hscope]

theorem owner?_eq_some {s : SymbolId} {o : ScopeId} (hs : x.owner? s = some o) :
    y.owner? s = some o := by
  obtain ⟨symbol, hsym, -⟩ := Option.map_eq_some_iff.1 hs
  rw [h.owner? (Arena.lt_size_of_get? hsym), hs]

theorem variableNode? {s : SymbolId} (hs : s.val < x.symbols.size) :
    y.variableNode? s = x.variableNode? s := by
  obtain ⟨a, ha⟩ := Arena.exists_get? hs
  obtain ⟨b, hb, hfix⟩ := h.symbols s a ha
  simp only [UnitIndex.variableNode?, ha, hb, Option.bind_some]
  exact congrArg (fun p => p.2.2.2) hfix

theorem variableNode?_eq_some {s : SymbolId} {n : NodeId} (hs : x.variableNode? s = some n) :
    y.variableNode? s = some n := by
  obtain ⟨symbol, hsym, -⟩ := Option.bind_eq_some_iff.1 hs
  rw [h.variableNode? (Arena.lt_size_of_get? hsym), hs]

/-- The kind of a symbol stays the same but for what is added to it. -/
theorem kind_fixed {s : SymbolId} {symbol : Symbol} (hs : x.symbols.get? s = some symbol) :
    ∃ symbol', y.symbols.get? s = some symbol' ∧ symbol'.kind.fixed = symbol.kind.fixed := by
  obtain ⟨symbol', hs', hfix⟩ := h.symbols s symbol hs
  exact ⟨symbol', hs', congrArg (fun p => p.2.2.1) hfix⟩

theorem bufferTable? {s : SymbolId} {t : TableId} (hs : x.bufferTable? s = some t) :
    y.bufferTable? s = some t := by
  obtain ⟨symbol, b, hsym, hkind, rfl⟩ := bufferTable?_eq_some.1 hs
  obtain ⟨symbol', hsym', hfix⟩ := h.kind_fixed hsym
  rw [hkind] at hfix
  cases hkind' : symbol'.kind with
  | tableBuffer b' =>
    rw [hkind'] at hfix
    simp only [SymbolKind.fixed, SymbolKind.tableBuffer.injEq, TableBuffer.mk.injEq] at hfix
    have htable : b'.table = b.table := hfix.1
    exact bufferTable?_eq_some.2 ⟨symbol', b', hsym', hkind', htable⟩
  | _ => rw [hkind'] at hfix; cases hfix

/-- The fields of a buffer depend on the tables alone. -/
theorem bufferField?_eq {b : SymbolId} {t : TableId} (hb : x.bufferTable? b = some t)
    (tables : y.tables = x.tables) (fields : y.fields = x.fields) (name : String) :
    y.bufferField? b name = x.bufferField? b name := by
  simp only [UnitIndex.bufferField?, hb, h.bufferTable? hb, Option.bind_some, fieldNamed?,
    fieldCandidates, tables, fields]

theorem asFieldBuffer? {s : SymbolId} {f : FieldBuffer} (hs : x.asFieldBuffer? s = some f) :
    y.asFieldBuffer? s = some f := by
  obtain ⟨symbol, hsym, hkind⟩ := asFieldBuffer?_eq_some.1 hs
  obtain ⟨symbol', hsym', hfix⟩ := h.kind_fixed hsym
  rw [hkind] at hfix
  cases hkind' : symbol'.kind with
  | fieldBuffer f' =>
    rw [hkind'] at hfix
    exact asFieldBuffer?_eq_some.2 ⟨symbol', hsym', hkind'.trans hfix⟩
  | _ => rw [hkind'] at hfix; cases hfix

theorem asFieldBuffer?_eq {s : SymbolId} (hs : s.val < x.symbols.size) :
    y.asFieldBuffer? s = x.asFieldBuffer? s := by
  cases hf : x.asFieldBuffer? s with
  | some f => exact h.asFieldBuffer? hf
  | none =>
    obtain ⟨symbol, hsym⟩ := Arena.exists_get? hs
    obtain ⟨symbol', hsym', hfix⟩ := h.kind_fixed hsym
    refine Option.eq_none_iff_forall_ne_some.2 fun f hf' => ?_
    obtain ⟨_, hget, hkind'⟩ := asFieldBuffer?_eq_some.1 hf'
    rw [hsym'] at hget
    cases hget
    rw [hkind'] at hfix
    cases hkind : symbol.kind with
    | fieldBuffer f₀ => rw [asFieldBuffer?_eq_some.2 ⟨symbol, hsym, hkind⟩] at hf; cases hf
    | _ => rw [hkind] at hfix; cases hfix

end Extends

end UnitIndex

end AblResolve
