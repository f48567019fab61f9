import AblResolve.Proofs.TableOwnership
/-!
Catalog tables and their default buffers. However a walk comes to a table of the catalog, it finds
it under its key; a table that is listed there has at most one default buffer, and that is the one
which the root scope offers.
-/
namespace AblResolve

theorem Symbol.table_of_defaultTable? {s : Symbol} {t : TableId} (h : s.defaultTable? = some t) :
    ∃ b, s.kind = .tableBuffer b ∧ b.table = t ∧ b.isDefault = true := by
  unfold defaultTable? at h
  cases hk : s.kind <;> simp_all

theorem Symbol.Revision.defaultTable? {s s' : Symbol} (h : s.Revision s') :
    s'.defaultTable? = s.defaultTable? := by
  cases h <;> simp_all [Symbol.defaultTable?]

namespace Arena

variable {e : Entity} {α β : Type} {a : Arena e α}

/-- A new element in which nothing is found changes nothing. -/
theorem bind_get?_push {v : α} {f : α → Option β} (h : f v = none) (i : Id e) :
    ((a.push v).get? i).bind f = (a.get? i).bind f := by
  rw [get?_push]
  split
  · rename_i hi
    rw [hi, get?_next]
    exact h
  · rfl

end Arena

namespace UnitIndex

variable {x y : UnitIndex} {opened : List SymbolId} {typing tabling : Prop}

/-- The table whose default buffer a symbol of the index is. -/
def defaultTable? (x : UnitIndex) (b : SymbolId) : Option TableId :=
  (x.symbols.get? b).bind (·.defaultTable?)

/-- The default buffer of a catalog table that the root scope offers. -/
def unnamedBuffer? (x : UnitIndex) (t : TableId) : Option SymbolId :=
  (x.scopes.get? rootScope).bind (·.unnamedBuffer? t)

/-- The tables that come from the catalog are listed under different keys, and each has no other
default buffer than the one that the root scope offers. -/
structure SchemaTablesOk (x : UnitIndex) : Prop where
  keys : (x.schemaTables.map (·.1)).Nodup
  listed : ∀ t, x.IsSchema t → ∃ key, (key, t) ∈ x.schemaTables
  sole : ∀ t b, x.IsSchema t → x.defaultTable? b = some t → x.unnamedBuffer? t = some b
  isDefault : ∀ t b, x.unnamedBuffer? t = some b → x.defaultTable? b = some t

theorem Coherent.table_of_defaultTable? (h : x.Coherent) {b : SymbolId} {t : TableId}
    (hb : x.defaultTable? b = some t) : b.val < x.symbols.size ∧ t.val < x.tables.size := by
  obtain ⟨s, hs, hdefault⟩ := Option.bind_eq_some_iff.1 hb
  obtain ⟨buffer, hkind, rfl, -⟩ := Symbol.table_of_defaultTable? hdefault
  have ok := (h.symbols hs).kind
  rw [hkind] at ok
  exact ⟨Arena.lt_size_of_get? hs, ok.1⟩

/-! ### Changes that concern no default buffer -/

theorem Initial.defaultTable? {s : Symbol} (h : x.Initial s.kind) : s.defaultTable? = none := by
  cases hk : s.kind with
  | tableBuffer b =>
    rw [hk] at h
    simp [Symbol.defaultTable?, hk, h.2.1]
  | _ => simp [Symbol.defaultTable?, hk]

theorem defaultTable?_withSymbol {s : Symbol} (h : s.defaultTable? = none) (b : SymbolId) :
    (x.withSymbol s).defaultTable? b = x.defaultTable? b :=
  Arena.bind_get?_push h b

theorem defaultTable?_reached {buffer : SymbolId} {owner : Symbol} {b : TableBuffer}
    (found : x.symbols.get? buffer = some owner) (kind : owner.kind = .tableBuffer b) (f : FieldId)
    (name : String) (i : SymbolId) :
    (x.reached buffer owner b f name).defaultTable? i = x.defaultTable? i := by
  refine (Arena.bind_get?_update (fun v hv => ?_) i).trans (Arena.bind_get?_push rfl i)
  rw [Arena.get?_push_of_get? found] at hv
  cases hv
  simp [Symbol.defaultTable?, kind]

theorem unnamedBuffer?_push {s : Scope} (scopes : y.scopes = x.scopes.push s)
    (none : s.unnamedBuffers = []) (t : TableId) : y.unnamedBuffer? t = x.unnamedBuffer? t := by
  have nothing : s.unnamedBuffer? t = Option.none := by simp [Scope.unnamedBuffer?, none]
  rw [unnamedBuffer?, scopes]
  exact Arena.bind_get?_push (f := fun s : Scope => s.unnamedBuffer? t) nothing rootScope

/-- A new default buffer is the one of its table, and the root scope offers it. -/
theorem defaultTable?_withDefaultBuffer (x : UnitIndex) (t : TableId) (name : String)
    (b : SymbolId) :
    (x.withDefaultBuffer t name).defaultTable? b =
      if b = x.symbols.next then some t else x.defaultTable? b := by
  rw [defaultTable?, withDefaultBuffer, Arena.get?_push]
  split
  · rfl
  · rfl

theorem unnamedBuffer?_withDefaultBuffer {t : TableId} (name : String) {root : Scope}
    (hasRoot : x.scopes.get? rootScope = some root) (new : root.unnamedBuffer? t = none)
    (t' : TableId) : (x.withDefaultBuffer t name).unnamedBuffer? t' =
      if t = t' then some x.symbols.next else x.unnamedBuffer? t' := by
  have old : x.unnamedBuffer? t' = root.unnamedBuffer? t' := by rw [unnamedBuffer?, hasRoot]; rfl
  have added : (x.withDefaultBuffer t name).unnamedBuffer? t' =
      Scope.unnamedBuffer? { root with
        unnamedBuffers := root.unnamedBuffers ++ [(t, x.symbols.next)] } t' := by
    rw [unnamedBuffer?, withDefaultBuffer, Arena.get?_update, if_pos rfl, hasRoot]
    rfl
  rw [added, old]
  unfold Scope.unnamedBuffer? at new ⊢
  rw [List.find?_append, List.find?_singleton]
  by_cases htt : t = t'
  · subst htt
    rw [Option.map_eq_none_iff.1 new]
    simp
  · simp [htt]

namespace SchemaTablesOk

variable (h : x.SchemaTablesOk)
include h

theorem congr (schemaTables : y.schemaTables = x.schemaTables)
    (kinds : ∀ t, y.IsSchema t → x.IsSchema t)
    (defaults : ∀ b, y.defaultTable? b = x.defaultTable? b)
    (unnamed : ∀ t, y.unnamedBuffer? t = x.unnamedBuffer? t) : y.SchemaTablesOk where
  keys := schemaTables ▸ h.keys
  listed t ht := schemaTables ▸ h.listed t (kinds t ht)
  sole t b ht hb := (unnamed t).trans (h.sole t b (kinds t ht) (defaults b ▸ hb))
  isDefault t b hb := (defaults b).trans (h.isDefault t b (unnamed t ▸ hb))

/-- A table is loaded only if none is listed under its key. -/
theorem load (coherent : x.Coherent) {e : Catalog.Entry} (new : x.schemaTable? e = none) :
    (x.loadTable e).SchemaTablesOk := by
  have kinds : ∀ t, (x.loadTable e).IsSchema t → t = x.tables.next ∨ x.IsSchema t := by
    intro t ht
    obtain ⟨table, htable, hkind⟩ := isSchema_iff.1 ht
    rcases Arena.get?_push_cases htable with ⟨rfl, -⟩ | hold
    · exact .inl rfl
    · exact .inr (isSchema_iff.2 ⟨table, hold, hkind⟩)
  refine ⟨?_, fun t ht => ?_, fun t b ht hb => ?_, h.isDefault⟩
  · have fresh : ∀ p ∈ x.schemaTables, p.1 ≠ e.key := by
      simpa [schemaTable?] using new
    show ((x.schemaTables ++ [(e.key, x.tables.next)]).map (·.1)).Nodup
    rw [List.map_append, List.nodup_append]
    refine ⟨h.keys, by simp, ?_⟩
    rintro _ hold _ hnew rfl
    obtain ⟨p, hp, heq⟩ := List.mem_map.1 hold
    exact fresh p hp (heq.trans (List.mem_singleton.1 hnew))
  · rcases kinds t ht with rfl | hold
    · exact ⟨e.key, List.mem_append_right _ (List.mem_singleton_self _)⟩
    · obtain ⟨key, mem⟩ := h.listed t hold
      exact ⟨key, List.mem_append_left _ mem⟩
  · rcases kinds t ht with rfl | hold
    · exact absurd (coherent.table_of_defaultTable? hb).2 (Nat.lt_irrefl _)
    · exact h.sole t b hold hb

/-- A default buffer is made only if the root scope offers none. -/
theorem createDefault (coherent : x.Coherent) {t : TableId} {name : String} {root : Scope}
    (hasRoot : x.scopes.get? rootScope = some root) (new : root.unnamedBuffer? t = none) :
    (x.withDefaultBuffer t name).SchemaTablesOk := by
  have none : x.unnamedBuffer? t = none := by rw [unnamedBuffer?, hasRoot]; exact new
  have unnamed := unnamedBuffer?_withDefaultBuffer name hasRoot new
  have defaults := defaultTable?_withDefaultBuffer x t name
  refine ⟨h.keys, h.listed, fun t' b ht hb => ?_, fun t' b hb => ?_⟩
  · rw [defaults] at hb
    rw [unnamed]
    split at hb
    · rename_i hnext
      cases hb
      rw [if_pos rfl, hnext]
    · have old := h.sole t' b ht hb
      rw [if_neg, old]
      rintro rfl
      rw [none] at old
      cases old
  · rw [unnamed] at hb
    rw [defaults]
    split at hb
    · rename_i htt
      cases hb
      rw [if_pos rfl, htt]
    · have old := h.isDefault t' b hb
      rw [if_neg, old]
      rintro rfl
      exact Nat.lt_irrefl _ (coherent.table_of_defaultTable? old).1

/-- A table of the unit gets its own default buffer. -/
theorem beginTable (coherent : x.Coherent) {kind : TableKind} (own : kind ≠ .schema) (n : NodeId)
    (name : String) : (x.withTable kind n name).SchemaTablesOk := by
  have kinds : ∀ t, (x.withTable kind n name).IsSchema t → x.IsSchema t := by
    intro t ht
    obtain ⟨table, htable, hkind⟩ := isSchema_iff.1 ht
    rcases Arena.get?_push_cases htable with ⟨-, rfl⟩ | hold
    · exact absurd hkind own
    · exact isSchema_iff.2 ⟨table, hold, hkind⟩
  have defaults : ∀ b, (x.withTable kind n name).defaultTable? b =
      if b = x.symbols.next then some x.tables.next else x.defaultTable? b := by
    intro b
    show ((x.symbols.push _).get? b).bind _ = _
    rw [Arena.get?_push]
    split
    · rfl
    · rfl
  refine ⟨h.keys, fun t ht => h.listed t (kinds t ht), fun t b ht hb => ?_, fun t b hb => ?_⟩
  · have old := kinds t ht
    rw [defaults] at hb
    split at hb
    · cases hb
      obtain ⟨table, htable, -⟩ := isSchema_iff.1 old
      exact absurd (Arena.lt_size_of_get? htable) (Nat.lt_irrefl _)
    · exact h.sole t b old hb
  · have old := h.isDefault t b hb
    rw [defaults, if_neg, old]
    rintro rfl
    exact Nat.lt_irrefl _ (coherent.table_of_defaultTable? old).1

/-- Tables may change as long as none comes from the catalog that did not before. -/
theorem updateTable {t : TableId} {g : Table → Table} (kind : ∀ v, (g v).kind = v.kind)
    (fields : Arena .field Field) (indexes : Arena .index TableIndex) :
    SchemaTablesOk { x with tables := x.tables.update t g, fields, indexes } :=
  h.congr rfl (fun s hs => (Arena.bind_get?_update (fun v _ => by rw [kind]) s).symm.trans hs)
    (fun _ => rfl) fun _ => rfl

theorem change (coherent : x.Coherent) (c : x.Change opened typing tabling y) :
    y.SchemaTablesOk := by
  cases c with
  | load e new => exact h.load coherent new
  | create scope new kind =>
    exact h.congr rfl (fun _ => id) (defaultTable?_withSymbol kind.defaultTable?) fun _ => rfl
  | createDefault found hasRoot new => exact h.createDefault coherent hasRoot new
  | reach found kind =>
    exact h.congr rfl (fun _ => id) (defaultTable?_reached found kind _ _) fun _ => rfl
  | attach =>
    refine h.congr rfl (fun _ => id) (Arena.bind_get?_update fun _ _ => rfl) fun t => ?_
    unfold unnamedBuffer? attached
    dsimp only
    split
    · rfl
    · refine Arena.bind_get?_update (fun _ _ => ?_) rootScope
      rfl
  | revise found revision =>
    refine h.congr rfl (fun _ => id) (Arena.bind_get?_update fun v hv => ?_) fun _ => rfl
    rw [found] at hv
    cases hv
    exact revision.defaultTable?
  | typeVariable isOpen found kind =>
    refine h.congr rfl (fun _ => id) (Arena.bind_get?_update fun v hv => ?_) fun _ => rfl
    rw [found] at hv
    cases hv
    simp [Symbol.defaultTable?, kind]
  | openScope => exact h.congr rfl (fun _ => id) (fun _ => rfl) (unnamedBuffer?_push rfl rfl)
  | openRoutine =>
    exact h.congr rfl (fun _ => id) (defaultTable?_withSymbol rfl) (unnamedBuffer?_push rfl rfl)
  | setClass =>
    refine h.congr rfl (fun _ => id) (fun _ => rfl) fun _ =>
      Arena.bind_get?_update (fun _ _ => ?_) rootScope
    rfl
  | copyFields | createIndex =>
    refine h.updateTable ?_ _ _
    exact fun _ => rfl
  | _ => exact h.congr rfl (fun _ => id) (fun _ => rfl) fun _ => rfl

end SchemaTablesOk

theorem Refers.defaultTable? (h : x.Refers y) (b : SymbolId) :
    y.defaultTable? b = x.defaultTable? b := by
  have counts : ∀ z : UnitIndex, z.defaultTable? b =
      ((z.symbols.get? b).map Symbol.uncounted).bind (·.defaultTable?) := by
    intro z
    rw [Option.bind_map]
    rfl
  rw [counts, counts, h.symbols]

end UnitIndex

namespace Walk

open UnitIndex

variable {env : Env} {w w' : Walk}

theorem Stride.schemaTables (stride : Stride w w') (hs : Sound w) (h : w.index.SchemaTablesOk) :
    w'.index.SchemaTablesOk := by
  have coherent := hs.coherent
  cases stride with
  | change change => exact h.change coherent change
  | turn turn =>
    cases turn with
    | reframe | endDefinition => exact h
    | define scope new kind =>
      exact h.congr rfl (fun _ => id) (defaultTable?_withSymbol kind.defaultTable?) fun _ => rfl
    | beginTable n name own => exact h.beginTable coherent own n name
    | finishTable | joinField =>
      refine h.updateTable ?_ _ _
      exact fun _ => rfl
    | beginField name found kind =>
      exact h.congr rfl (fun _ => id) (defaultTable?_reached (x := { w.index with
        fields := w.index.fields.push { name } }) found kind _ _) fun _ => rfl
  | refer refers =>
    refine h.congr (by rw [refers.rest]) (fun t ht => ?_) refers.defaultTable? fun t => ?_
    · rwa [IsSchema, refers.tables] at ht
    · rw [unnamedBuffer?, refers.rest, unnamedBuffer?]

/-- At every moment of a walk, catalog tables are listed and have one default buffer. -/
theorem Strides.schemaTables (strides : Strides w w') (hs : Sound w)
    (h : w.index.SchemaTablesOk) : w'.index.SchemaTablesOk :=
  (strides.keep hs (fun _ _ hs _ stride => stride.schemaTables hs) h).2

theorem schemaTables_start (env : Env) (notes : Annotations) :
    (start env notes).index.SchemaTablesOk := by
  refine ⟨List.nodup_nil, fun t ht => ?_, fun t b ht => ?_, fun t b hb => ?_⟩
  · cases ht
  · cases ht
  · cases hb

end Walk

end AblResolve
