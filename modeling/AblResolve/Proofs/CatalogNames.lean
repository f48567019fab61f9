import AblResolve.Proofs.CatalogCopies
import AblResolve.Proofs.LookupEnds
/-!
Names that reach the catalog. A record, or a field with a table name before it, falls through to
the catalog if that name is neither a buffer in sight nor a table of the unit. What it stands for
then is the default buffer of the copy that is listed under the key of the catalog table.
-/
namespace AblResolve

namespace UnitIndex

variable {x y : UnitIndex}

/-! ### What a copy goes on to offer -/

theorem Extends.defaultTable? (ext : x.Extends y) {b : SymbolId} {t : TableId}
    (h : x.defaultTable? b = some t) : y.defaultTable? b = some t := by
  obtain ⟨s, hs, hdefault⟩ := Option.bind_eq_some_iff.1 h
  obtain ⟨buffer, hkind, rfl, isDefault⟩ := Symbol.table_of_defaultTable? hdefault
  obtain ⟨s', hs', same⟩ := ext.kind_fixed hs
  rw [hkind] at same
  cases hk : s'.kind <;> rw [hk] at same <;>
    simp only [SymbolKind.fixed, SymbolKind.tableBuffer.injEq, TableBuffer.mk.injEq,
      reduceCtorEq] at same
  rw [UnitIndex.defaultTable?, hs', Option.bind_some, Symbol.defaultTable?, hk]
  simp [same.1, same.2.1, isDefault]

theorem fieldNamed?_congr {t : TableId} {name : String} (tables : y.tables = x.tables)
    (fields : y.fields = x.fields) : y.fieldNamed? t name = x.fieldNamed? t name := by
  unfold fieldNamed? fieldCandidates
  rw [tables, fields]

/-- The fields of a frozen table keep their names. -/
theorem KeepsTables.fieldNamed? (kept : x.KeepsTables y) {opened : List SymbolId}
    {current : Option TableId} (ok : x.TablesOk opened current) {t : TableId} {table : Table}
    (found : x.tables.get? t = some table) (frozen : table.frozen = true) (name : String) :
    y.fieldNamed? t name = x.fieldNamed? t name := by
  have candidates : y.fieldCandidates table = x.fieldCandidates table := by
    refine List.filterMap_congr fun f hf => ?_
    have owner := (ok.fields.listed t f).1 (by simpa [fieldsOf, found] using hf)
    obtain ⟨v, hv, htable⟩ := Option.bind_eq_some_iff.1 owner
    rw [hv, kept.fields f v hv (by rw [htable]; rfl)]
  rw [UnitIndex.fieldNamed?, kept.tables t table found frozen, UnitIndex.fieldNamed?, found,
    Option.bind_some, Option.bind_some, candidates]

theorem bufferTable?_of_defaultTable? {b : SymbolId} {t : TableId}
    (h : x.defaultTable? b = some t) : x.bufferTable? b = some t := by
  obtain ⟨s, hs, hdefault⟩ := Option.bind_eq_some_iff.1 h
  obtain ⟨buffer, hkind, htable, -⟩ := Symbol.table_of_defaultTable? hdefault
  exact bufferTable?_eq_some.2 ⟨s, buffer, hs, hkind, htable⟩

/-- The buffer is the default buffer of the table that is listed for a table of the catalog. -/
structure Serves (x : UnitIndex) (e : Catalog.Entry) (t : TableId) (b : SymbolId) : Prop where
  listed : (e.key, t) ∈ x.schemaTables
  isDefault : x.defaultTable? b = some t

/-- If the table has a field by a name, the symbol stands for that field, reached through the
buffer. -/
def ReachesField (x : UnitIndex) (t : TableId) (b : SymbolId) (name : String)
    (symbol : Option SymbolId) : Prop :=
  ∀ found, x.fieldNamed? t name = some found →
    ∃ s, symbol = some s ∧ x.asFieldBuffer? s = some ⟨b, found.item⟩

theorem findIn?_attached {i : SymbolId} {s : Symbol} {space space' : Namespace}
    (other : s.name ≠ "" → space ≠ space') {o : ScopeId} {name : String} :
    (x.attached i s space).findIn? o space' name = x.findIn? o space' name := by
  unfold findIn? attached
  dsimp only
  split
  · rfl
  · rename_i hname
    refine Arena.bind_get?_update (fun v _ => ?_) o
    show NameTable.find? _ _ _ = _
    rw [NameTable.find?_insert, if_neg fun h => other hname h.1]
    rfl

end UnitIndex

namespace Walk

open UnitIndex

section Lookup

variable {env : Env} {n : NodeId} {l : Licence} {w w' : Walk} {name : String} {e : Catalog.Entry}

theorem Calm.defaultTable? (h : Calm l w w') {b : SymbolId} {t : TableId}
    (hb : w.index.defaultTable? b = some t) : w'.index.defaultTable? b = some t := by
  obtain ⟨s, hs, hdefault⟩ := Option.bind_eq_some_iff.1 hb
  obtain ⟨s', hs', same⟩ := h.symbols.keeps b s hs
  rw [UnitIndex.defaultTable?, hs', Option.bind_some, Symbol.defaultTable?_of_core same, hdefault]

theorem Calm.asFieldBuffer? (h : Calm l w w') {s : SymbolId} {f : FieldBuffer}
    (hf : w.index.asFieldBuffer? s = some f) : w'.index.asFieldBuffer? s = some f := by
  obtain ⟨symbol, hs, hkind⟩ := asFieldBuffer?_eq_some.1 hf
  obtain ⟨symbol', hs', same⟩ := h.symbols.keeps s symbol hs
  have kinds := Symbol.kind_of_core same
  rw [hkind] at kinds
  cases hk : symbol'.kind <;> simp [hk, SymbolKind.core] at kinds
  exact asFieldBuffer?_eq_some.2 ⟨symbol', hs', kinds ▸ hk⟩

/-- The name is neither that of a buffer in sight nor that of a table of the unit. -/
def Unclaimed (w : Walk) (name : String) : Prop :=
  w.index.resolve? w.scope .buffer name = none ∧ w.index.findIn? rootScope .table name = none

instance (w : Walk) (name : String) : Decidable (w.Unclaimed name) := by
  unfold Unclaimed
  infer_instance

/-- Other names may get a meaning. -/
theorem Unclaimed.later (h : w.Unclaimed name) (hs : Sound w) (ext : w.index.Extends w'.index)
    (scope : w'.scope = w.scope) (same : ∀ s space, space ≠ .variable →
      w'.index.findIn? s space name = w.index.findIn? s space name) : w'.Unclaimed name := by
  refine ⟨?_, (same rootScope .table (by simp)).trans h.2⟩
  rw [UnitIndex.resolve?, scope, ext.scopeChain hs.coherent.scopeTree _ hs.scope_lt]
  simp only [same _ .buffer (by simp)]
  exact h.1

theorem Calm.serves (h : Calm l w w') {t : TableId} {b : SymbolId} (serves : w.index.Serves e t b) :
    w'.index.Serves e t b :=
  ⟨h.schemaTables ▸ serves.listed, h.defaultTable? serves.isDefault⟩

theorem defaultBuffer_ok {t : TableId} {b : SymbolId} (ok : w.index.SchemaTablesOk)
    (hok : defaultBuffer t w = .ok b w') : w'.index.defaultTable? b = some t := by
  unfold defaultBuffer at hok
  obtain ⟨root, w₁, hroot, hrest⟩ := bind_ok.1 hok
  obtain ⟨found, rfl⟩ := scopeAt_ok.1 hroot
  cases hb : root.unnamedBuffer? t with
  | some buffer =>
    rw [hb] at hrest
    cases hrest
    exact ok.isDefault t b (by rw [unnamedBuffer?, found]; exact hb)
  | none =>
    rw [hb] at hrest
    obtain ⟨table, w₂, htable, hcreate⟩ := bind_ok.1 hrest
    obtain ⟨-, rfl⟩ := tableAt_ok.1 htable
    obtain ⟨b', w₃, hnew, hscope⟩ := bind_ok.1 hcreate
    obtain ⟨rfl, rfl⟩ := createSymbol_ok hnew
    obtain ⟨_, w₄, hupdate, hpure⟩ := bind_ok.1 hscope
    obtain ⟨-, rfl⟩ := updateScope_ok hupdate
    cases hpure
    simp [UnitIndex.defaultTable?, withSymbol, Symbol.defaultTable?]

/-- A name of the catalog leads to the default buffer of the table that is listed for it. -/
theorem schemaBuffer?_ok (n : NodeId) {r : Option SymbolId} (hs : Sound w)
    (ok : w.index.SchemaTablesOk) (he : env.catalog.table? name = some e)
    (hok : schemaBuffer? env name w = .ok r w') :
    ∃ t b, r = some b ∧ w'.index.Serves e t b := by
  cases schemaBuffer?_end hok with
  | unlisted unlisted =>
    rw [he] at unlisted
    cases unlisted
  | @offered _ t b v _ listed loads offers =>
    rw [he] at listed
    cases listed
    obtain ⟨_, -, -, inList⟩ := schemaTable_log (l := {}) he loads
    obtain ⟨moves, -⟩ := (ends_schemaTable env n hs e).ok loads
    have calm : Calm {} v w' := defaultBuffer_calm inList offers
    exact ⟨t, b, rfl, calm.schemaTables ▸ inList,
      defaultBuffer_ok ((Runs.strides moves.runs hs).schemaTables hs ok) offers⟩

theorem findBuffer?_ok (n : NodeId) {r : Option SymbolId} (hs : Sound w)
    (ok : w.index.SchemaTablesOk) (unclaimed : w.Unclaimed name)
    (he : env.catalog.table? name = some e) (hok : findBuffer? env name .buffer w = .ok r w') :
    ∃ t b, r = some b ∧ w'.index.Serves e t b := by
  cases findBuffer?_end hs hok with
  | named found =>
    rw [unclaimed.1] at found
    cases found
  | table _ found =>
    rw [unclaimed.2] at found
    cases found
  | schema _ _ find => exact schemaBuffer?_ok n hs ok he find

/-- A field that is qualified by a name of the catalog is one of the buffer that the name leads
to. -/
theorem lookupQualified?_ok (n : NodeId) {field : String} {binding : Bool} {r : Option FieldLookup}
    (hs : Sound w) (ok : w.index.SchemaTablesOk) (unclaimed : w.Unclaimed name)
    (he : env.catalog.table? name = some e)
    (hok : lookupQualified? env name field binding w = .ok r w') :
    ∃ t b, w'.index.Serves e t b ∧ w'.index.ReachesField t b field (r.map (·.symbol)) := by
  have named : ∀ {v : Walk} {t : TableId} {b : SymbolId}, v.index.Serves e t b →
      v.index.bufferField? b field = v.index.fieldNamed? t field := fun serves => by
    rw [UnitIndex.bufferField?, bufferTable?_of_defaultTable? serves.isDefault, Option.bind_some]
  cases lookupQualified?_end n hs hok with
  | noBuffer find =>
    obtain ⟨t, b, heq, -⟩ := findBuffer?_ok n hs ok unclaimed he find
    cases heq
  | @noField b _ find lacks =>
    obtain ⟨t, b', heq, serves⟩ := findBuffer?_ok n hs ok unclaimed he find
    cases heq
    refine ⟨t, b, serves, fun found hfound => ?_⟩
    rw [← named serves, lacks] at hfound
    cases hfound
  | @field b s _ _ v _ find has obtains =>
    obtain ⟨t, b', heq, serves⟩ := findBuffer?_ok n hs ok unclaimed he find
    cases heq
    have calm : Calm {} v w' := obtains.calm
    refine ⟨t, b, calm.serves serves, fun found hfound => ?_⟩
    rw [fieldNamed?_congr (calm.tables (by simp)) (calm.fields (by simp)), ← named serves,
      has] at hfound
    cases hfound
    exact ⟨s, rfl, obtains.reached⟩

/-! ### Entering what falls through -/

/-- A record whose name falls through to the catalog. -/
theorem enterRecord_serves {plan : Plan env.tree n} (hs : Sound w) (ok : w.index.SchemaTablesOk)
    (asked : w.qualifierAt n ≠ .tempTableSymbol) (unclaimed : w.Unclaimed (env.tree.text n))
    (he : env.catalog.table? (env.tree.text n) = some e)
    (hok : enterRecord env n w = .ok plan w') :
    ∃ t b, w'.index.Serves e t b ∧ (w'.notes.get n).symbol = some b := by
  obtain ⟨b, q, v, w₁, htake, hfind, calm, hsymbol, -⟩ := enterRecord_ok hok
  obtain ⟨rfl, moves, -, hindex, -⟩ := (ends_takeQualifier env n).ok htake
  have lookup : RecordLookup.ofQualifier (w.qualifierAt n) = .buffer := by
    have never : w.qualifierAt n ≠ .schemaTableSymbol := hs.qualifierAt_ne n
    generalize w.qualifierAt n = q at asked never
    cases q <;> first | rfl | exact absurd rfl asked | exact absurd rfl never
  rw [lookup] at hfind
  have unclaimed' := unclaimed.later hs moves.runs.extends moves.scope fun s space _ => by
    rw [hindex, UnitIndex.findIn?, UnitIndex.findIn?]
  obtain ⟨t, b', heq, serves⟩ := findBuffer?_ok n (moves.runs.sound hs)
    ((Runs.strides moves.runs hs).schemaTables hs ok) unclaimed' he hfind
  cases heq
  exact ⟨t, b, calm.serves serves, hsymbol⟩

/-- What becomes of a field before it is looked up: it takes what it has been told, and it may
define a variable. -/
structure Primed (env : Env) (n : NodeId) (w v : Walk) : Prop where
  moves : Moves env n w v
  names : ∀ s space name, space ≠ .variable →
    v.index.findIn? s space name = w.index.findIn? s space name
  listed : v.index.schemaTables = w.index.schemaTables
  tables : v.index.tables = w.index.tables
  fields : v.index.fields = w.index.fields
  symbol : (v.notes.get n).symbol = (w.notes.get n).symbol ∨
    ∃ s, (v.notes.get n).symbol = some s ∧ v.index.IsAttached s ∧ v.index.asFieldBuffer? s = none

/-- A field that defines a variable stands for it in `v`; another stands for what it did in `w`. -/
def OwnSymbol (env : Env) (n : NodeId) (w v : Walk) : Prop :=
  if env.tree.definesInline n then
    ∃ s, (v.notes.get n).symbol = some s ∧ v.index.variableNode? s = some n
  else (v.notes.get n).symbol = (w.notes.get n).symbol

theorem Primed.trans {v : Walk} (h : Primed env n w v) (k : Primed env n v w') :
    Primed env n w w' where
  moves := Relation.ReflTransGen.trans h.moves k.moves
  names s space name other := (k.names s space name other).trans (h.names s space name other)
  listed := k.listed.trans h.listed
  tables := k.tables.trans h.tables
  fields := k.fields.trans h.fields
  symbol := by
    rcases k.symbol with same | inline
    · rcases h.symbol with same' | ⟨s, hs, attached, none⟩
      · exact .inl (same.trans same')
      · have ext := k.moves.runs.extends
        exact .inr ⟨s, same.trans hs, attached.extends ext,
          (ext.asFieldBuffer?_eq attached.lt_size).trans none⟩
    · exact .inr inline

theorem defineInline_primed (hs : Sound w) (kind : env.tree.kind n = .field)
    (hok : defineInline env n w = .ok () w') : Primed env n w w' ∧
      ∃ s, (w'.notes.get n).symbol = some s ∧ w'.index.variableNode? s = some n := by
  have moves := ((ends_defineInline env n hs kind).ok hok).1
  unfold defineInline at hok
  obtain ⟨scope, w₁, hscope, hrest⟩ := bind_ok.1 hok
  obtain ⟨rfl, rfl⟩ := currentScope_ok hscope
  obtain ⟨i, w₂, hnew, hattach⟩ := bind_ok.1 hrest
  obtain ⟨rfl, rfl⟩ := createSymbol_ok hnew
  obtain ⟨symbol, space', found, leads, rfl⟩ := attach_ok hattach
  simp only [withSymbol, Arena.get?_push_next, Option.some.injEq] at found
  subst found
  have mine := congrArg Annotation.symbol (Annotations.get_update_self w.notes n
    fun a => { a with symbol := some w.index.symbols.next })
  refine ⟨⟨moves, fun s space name other => ?_, rfl, rfl, rfl,
    .inr ⟨w.index.symbols.next, mine, ?_, ?_⟩⟩, w.index.symbols.next, mine, ?_⟩
  · -- the variable has a name of another sort
    refine (findIn?_attached fun hname => ?_).trans rfl
    rintro rfl
    obtain ⟨h, -⟩ := leads hname
    cases h
    exact other rfl
  · exact ⟨_, by simp [attached, withSymbol, Arena.get?_update]; rfl, rfl⟩
  · simp [UnitIndex.asFieldBuffer?, attached, withSymbol, Arena.get?_update, Symbol.asFieldBuffer?]
  · simp [UnitIndex.variableNode?, attached, withSymbol, Arena.get?_update, Symbol.asVariable?]

/-- A field is looked up as it has been told, unless it means what a screen shows. -/
theorem enterField_ok {plan : Plan env.tree n} (hs : Sound w) (kind : env.tree.kind n = .field)
    (hok : enterField env n w = .ok plan w') : ∃ v, Primed env n w v ∧
      (env.tree.hasKeyword n .input = true ∧ w' = v ∨ env.tree.hasKeyword n .input = false ∧
        OwnSymbol env n w v ∧
        resolveField env n (w.qualifierAt n) (w.hintAt n) v = .ok () w') := by
  unfold enterField at hok
  obtain ⟨q, w₁, htake, hrest⟩ := bind_ok.1 hok
  obtain ⟨rfl, moves₁, -, -, hhints⟩ := (ends_takeQualifier env n).ok htake
  obtain ⟨-, qualifiers, defaulted, same⟩ := takeQualifier_ok htake
  obtain ⟨h, w₂, hhint, hrest⟩ := bind_ok.1 hrest
  obtain ⟨rfl, moves₂, -⟩ := (ends_takeHint env n).ok hhint
  have moves : Moves env n w w₂ := moves₁.trans moves₂
  have hint : w₁.hintAt n = w.hintAt n := by rw [hintAt, hhints, hintAt]
  rw [hint] at hrest
  obtain ⟨told, notes⟩ : Primed env n w w₂ ∧ w₂.notes = w.notes := by
    cases hhint
    subst same
    exact ⟨⟨moves, fun _ _ _ _ => rfl, rfl, rfl, rfl, .inl rfl⟩, rfl⟩
  cases keyword : env.tree.hasKeyword n .input with
  | true =>
    simp only [keyword, Bool.not_true, Bool.false_eq_true, if_false] at hrest
    cases hrest
    exact ⟨w', told, .inl ⟨rfl, rfl⟩⟩
  | false =>
    simp only [keyword, Bool.not_false, if_true] at hrest
    split at hrest
    · rename_i inline
      obtain ⟨_, v, hdefine, hrest⟩ := bind_ok.1 hrest
      obtain ⟨_, w₃, hresolve, hpure⟩ := bind_ok.1 hrest
      cases hpure
      obtain ⟨primed, own⟩ := defineInline_primed (moves.runs.sound hs) kind hdefine
      exact ⟨v, told.trans primed, .inr ⟨rfl, by rwa [OwnSymbol, if_pos inline], hresolve⟩⟩
    · rename_i plain
      obtain ⟨_, w₃, hresolve, hpure⟩ := bind_ok.1 hrest
      cases hpure
      exact ⟨w₂, told, .inr ⟨rfl, by rw [OwnSymbol, if_neg plain, notes], hresolve⟩⟩

/-- What is written on a field that stands for something. Its value is stored in a table if it is a
field of one. -/
theorem annotateField_ok {found : FieldLookup} {q : Qualifier}
    (hok : annotateField n found q w = .ok () w') :
    ∃ store, (∀ f, w.index.asFieldBuffer? found.symbol = some f →
        store.isSome ∧ store ≠ some .variable) ∧
      (w'.notes = w.notes.update n fun a => { a with
        symbol := some found.symbol
        qualifier := some q
        store
        bufferScope := found.bufferScope
        unqualified := a.unqualified ||
          (found.unqualified && (store.isSome && store != some .variable))
        abbreviated := a.abbreviated || found.abbreviated }) ∧
      w'.index.unresolved = w.index.unresolved := by
  unfold annotateField at hok
  obtain ⟨store, w₁, hstore, hrest⟩ := bind_ok.1 hok
  obtain ⟨rfl, stored⟩ := storeOf_ok hstore
  obtain ⟨_, w₂, hannotate, hrest⟩ := bind_ok.1 hrest
  cases hannotate
  obtain ⟨_, w₃, hnote, hrest⟩ := bind_ok.1 hrest
  obtain rfl := updateSymbol_ok hnote
  obtain ⟨v, w₄, hv, hcount⟩ := bind_ok.1 hrest
  obtain ⟨-, rfl⟩ := symbolAt_ok.1 hv
  cases hk : v.kind <;> rw [hk] at hcount
  case fieldBuffer f =>
    obtain rfl := updateSymbol_ok hcount
    exact ⟨store, stored, rfl, rfl⟩
  all_goals
    cases hcount
    exact ⟨store, stored, rfl, rfl⟩

theorem resolveField_serves {q : Qualifier} {h : TableHint} {field : String}
    (kind : env.tree.kind n = .field) (hs : Sound w)
    (ok : w.index.SchemaTablesOk) (unhinted : w.hinted? h = none)
    (qualified : Text.splitLast? (env.tree.text n) = some (name, field))
    (unclaimed : w.Unclaimed name) (he : env.catalog.table? name = some e)
    (hok : resolveField env n q h w = .ok () w') :
    ∃ t b, w'.index.Serves e t b ∧ w'.index.ReachesField t b field (w'.notes.get n).symbol := by
  have looked : ∀ {r : Option FieldLookup} {v : Walk},
      lookupField? env (env.tree.text n) (q ≠ .symbol) w = .ok r v →
      ∃ t b, v.index.Serves e t b ∧ v.index.ReachesField t b field (r.map (·.symbol)) := by
    intro r v find
    unfold lookupField? at find
    rw [qualified] at find
    exact lookupQualified?_ok n hs ok unclaimed he find
  cases resolveField_end hs hok with
  | hinted hint | lacking hint =>
    rw [unhinted] at hint
    cases hint
  | @unknown v _ _ find notes =>
    obtain ⟨t, b, serves, reaches⟩ := looked find
    have calm : Calm {} v w' := Calmly.addUnresolved _ _ _ _ notes
    refine ⟨t, b, calm.serves serves, fun found hfound => ?_⟩
    rw [fieldNamed?_congr (calm.tables (by simp)) (calm.fields (by simp))] at hfound
    obtain ⟨s, hs, -⟩ := reaches found hfound
    cases hs
  | @found l v _ _ find annotates =>
    obtain ⟨t, b, serves, reaches⟩ := looked find
    have calm : Calm (entering env n) v w' := Calmly.annotateField l q _ _ _ annotates
    have alone : ¬ (entering env n).tables := fun other => other.2 kind
    refine ⟨t, b, calm.serves serves, fun found hfound => ?_⟩
    rw [fieldNamed?_congr (calm.tables alone) (calm.fields alone)] at hfound
    obtain ⟨s, hs, reach⟩ := reaches found hfound
    cases hs
    obtain ⟨store, -, notes, -⟩ := annotateField_ok annotates
    exact ⟨l.symbol, by rw [notes, Annotations.get_update_self], calm.asFieldBuffer? reach⟩

/-- A field whose qualifier falls through to the catalog. -/
theorem enterField_serves {plan : Plan env.tree n} {field : String} (hs : Sound w)
    (ok : w.index.SchemaTablesOk) (kind : env.tree.kind n = .field)
    (keyword : env.tree.hasKeyword n .input = false) (unhinted : w.hinted? (w.hintAt n) = none)
    (qualified : Text.splitLast? (env.tree.text n) = some (name, field))
    (unclaimed : w.Unclaimed name) (he : env.catalog.table? name = some e)
    (hok : enterField env n w = .ok plan w') :
    ∃ t b, w'.index.Serves e t b ∧ w'.index.ReachesField t b field (w'.notes.get n).symbol := by
  obtain ⟨v, primed, ⟨input, -⟩ | ⟨-, -, hresolve⟩⟩ := enterField_ok hs kind hok
  · rw [keyword] at input
    cases input
  have moves := primed.moves
  refine resolveField_serves kind (moves.runs.sound hs)
    ((Runs.strides moves.runs hs).schemaTables hs ok) ?_ qualified ?_ he hresolve
  · rw [Moves.hinted? env n moves, unhinted]
  · exact unclaimed.later hs moves.runs.extends moves.scope
      fun s space other => primed.names s space name other

end Lookup

/-! ### Until the end of the walk -/

section Unit

variable {env : Env} {n : NodeId} {notes : Annotations} {v w w' : Walk} {name : String}
  {e : Catalog.Entry} {t : TableId} {b : SymbolId}

theorem Strides.serves (strides : Strides w w') (hs : Sound w) (ok : w.TablesOk)
    (frozen : w.index.ListedFrozen) (serves : w.index.Serves e t b) : w'.index.Serves e t b :=
  ⟨(strides.listed hs ok frozen).2.subset serves.listed,
    strides.extends.defaultTable? serves.isDefault⟩

theorem Strides.reachesField {field : String} {symbol : Option SymbolId} (strides : Strides w w')
    (hs : Sound w) (ok : w.TablesOk) (frozen : w.index.ListedFrozen)
    (serves : w.index.Serves e t b) (reaches : w.index.ReachesField t b field symbol) :
    w'.index.ReachesField t b field symbol := by
  obtain ⟨table, found, isFrozen⟩ := frozen _ serves.listed
  intro f hf
  rw [(strides.keepsTables hs ok).fieldNamed? ok found isFrozen] at hf
  obtain ⟨s, hs, reach⟩ := reaches f hf
  exact ⟨s, hs, strides.extends.asFieldBuffer? reach⟩

/-- What is known about the tables in the state in which a node is entered, and afterwards. -/
theorem entered_tables (hok : visitUnit env (start env notes) = .ok () w)
    (he : (n, v) ∈ unitEntries env notes) :
    Sound v ∧ v.index.SchemaTablesOk ∧ ∃ plan v', enter env n v = .ok plan v' ∧ Strides v' w ∧
      Sound v' ∧ v'.TablesOk ∧ v'.index.ListedFrozen := by
  have hs := sound_start env notes
  obtain ⟨rs, trail, -⟩ := visitUnit_trail hok
  obtain ⟨before, plan, v', henter, entering, after⟩ := trail.enteredAmid hs (n, v) he
  have hv := sound_of_mem_unitEntries he
  have upTo : Strides (start env notes) v' := before.trans entering
  exact ⟨hv, before.schemaTables hs (schemaTables_start env notes), plan, v', henter, after,
    ((ends_enter env n hv).ok henter).enters.sound hv, upTo.tables hs (tables_start env notes),
    (upTo.listed hs (tables_start env notes) nofun).1⟩

theorem visitUnit_record (hok : visitUnit env (start env notes) = .ok () w)
    (he : (n, v) ∈ unitEntries env notes) (kind : env.tree.kind n = .record)
    (asked : v.qualifierAt n ≠ .tempTableSymbol) (unclaimed : v.Unclaimed (env.tree.text n))
    (found : env.catalog.table? (env.tree.text n) = some e) :
    ∃ t b, w.index.Serves e t b ∧ (w.notes.get n).symbol = some b := by
  obtain ⟨hs, ok, plan, v', henter, strides, hs', ok', frozen⟩ := entered_tables hok he
  have settled := (visitUnit_settles hok n v plan v' he henter).2 n (.of_record kind)
  rw [enter_record kind] at henter
  obtain ⟨t, b, serves, symbol⟩ := enterRecord_serves hs ok asked unclaimed found henter
  exact ⟨t, b, strides.serves hs' ok' frozen serves, (congrArg (·.1) settled).trans symbol⟩

theorem visitUnit_field {field : String} (hok : visitUnit env (start env notes) = .ok () w)
    (he : (n, v) ∈ unitEntries env notes) (kind : env.tree.kind n = .field)
    (keyword : env.tree.hasKeyword n .input = false) (unhinted : v.hinted? (v.hintAt n) = none)
    (qualified : Text.splitLast? (env.tree.text n) = some (name, field))
    (unclaimed : v.Unclaimed name) (found : env.catalog.table? name = some e) :
    ∃ t b, w.index.Serves e t b ∧ w.index.ReachesField t b field (w.notes.get n).symbol := by
  obtain ⟨hs, ok, plan, v', henter, strides, hs', ok', frozen⟩ := entered_tables hok he
  have settled := (visitUnit_settles hok n v plan v' he henter).2 n (.of_field kind)
  rw [enter_field kind] at henter
  obtain ⟨t, b, serves, reaches⟩ :=
    enterField_serves hs ok kind keyword unhinted qualified unclaimed found henter
  have symbol : (w.notes.get n).symbol = (v'.notes.get n).symbol := congrArg (·.1) settled
  exact ⟨t, b, strides.serves hs' ok' frozen serves,
    symbol ▸ strides.reachesField hs' ok' frozen serves reaches⟩

end Unit

end Walk

namespace UnitIndex

variable {x : UnitIndex} {catalog : Catalog} {name : String} {e : Catalog.Entry} {t : TableId}
  {b : SymbolId}

/-- What a name of the catalog leads to is a copy of the table that has the name. -/
theorem Copies.of_serves (copies : x.Copies catalog) (undotted : catalog.Undotted)
    (he : catalog.table? name = some e) (serves : x.Serves e t b) :
    ∃ table, x.tables.get? t = some table ∧ x.IsCopy table e := by
  obtain ⟨name', e', table, he', key, found, copy⟩ := copies _ serves.listed
  cases Catalog.eq_of_key undotted he he' key
  exact ⟨table, found, copy⟩

/-- A table of the catalog is copied under its key. -/
theorem Copies.of_schema (copies : x.Copies catalog) (ok : x.SchemaTablesOk) {table : Table}
    (found : x.tables.get? t = some table) (schema : table.kind = .schema) :
    ∃ name e, catalog.table? name = some e ∧ (e.key, t) ∈ x.schemaTables ∧ x.IsCopy table e := by
  obtain ⟨key, mem⟩ := ok.listed t (isSchema_iff.2 ⟨table, found, schema⟩)
  obtain ⟨name, e, table', he, rfl, found', copy⟩ := copies _ mem
  rw [found] at found'
  cases found'
  exact ⟨name, e, he, mem, copy⟩

/-- No table of the catalog is copied twice. -/
theorem Copies.sole (copies : x.Copies catalog) (ok : x.SchemaTablesOk) {t' : TableId}
    {table table' : Table} (found : x.tables.get? t = some table)
    (found' : x.tables.get? t' = some table') (schema : table.kind = .schema)
    (schema' : table'.kind = .schema)
    (database : table.database.map Text.fold = table'.database.map Text.fold)
    (names : Text.fold table.name = Text.fold table'.name) : t = t' := by
  obtain ⟨-, e, -, mem, copy⟩ := copies.of_schema ok found schema
  obtain ⟨-, e', -, mem', copy'⟩ := copies.of_schema ok found' schema'
  rw [copy.database, copy'.database] at database
  rw [copy.name, copy'.name] at names
  have key : e.key = e'.key := Catalog.Entry.key_congr (Option.some.inj database) names
  rw [key] at mem
  exact congrArg Prod.snd (List.inj_on_of_nodup_map ok.keys mem mem' rfl)

end UnitIndex

namespace CompilationUnit

open UnitIndex Walk

variable (catalog : Catalog) (types : TypeRegistry) (options : Options)

/-- A record, or a field with a table name before it, whose name falls through to the catalog stands
for the default buffer of a copy of the table that has the name, or for a field reached through it.
All tables that come from the catalog are such copies at the end, none is copied twice, and none has
two default buffers. -/
theorem analyze_catalog {u u' : CompilationUnit} {index : UnitIndex} (undotted : catalog.Undotted)
    (hok : u.analyze catalog types options = (.ok index, u')) :
    let env : Env := { tree := u.tree, catalog, types, options }
    (∀ n v e, (n, v) ∈ unitEntries env u.notes → u.tree.kind n = .record →
      v.qualifierAt n ≠ .tempTableSymbol → v.Unclaimed (u.tree.text n) →
      catalog.table? (u.tree.text n) = some e →
      ∃ t table b, index.tables.get? t = some table ∧ index.IsCopy table e ∧
        index.defaultTable? b = some t ∧ (u'.notes.get n).symbol = some b) ∧
    (∀ n v e name field, (n, v) ∈ unitEntries env u.notes → u.tree.kind n = .field →
      u.tree.hasKeyword n .input = false → v.hinted? (v.hintAt n) = none →
      Text.splitLast? (u.tree.text n) = some (name, field) → v.Unclaimed name →
      catalog.table? name = some e →
      ∃ t table b, index.tables.get? t = some table ∧ index.IsCopy table e ∧
        index.defaultTable? b = some t ∧
        index.ReachesField t b field (u'.notes.get n).symbol) ∧
    (∀ t table, index.tables.get? t = some table → table.kind = .schema →
      ∃ name e, catalog.table? name = some e ∧ index.IsCopy table e) ∧
    (∀ t t' table table', index.tables.get? t = some table → index.tables.get? t' = some table' →
      table.kind = .schema → table'.kind = .schema →
      table.database.map Text.fold = table'.database.map Text.fold →
      Text.fold table.name = Text.fold table'.name → t = t') ∧
    ∀ t table b b', index.tables.get? t = some table → table.kind = .schema →
      index.defaultTable? b = some t → index.defaultTable? b' = some t → b = b' := by
  intro env
  obtain ⟨w, hw, rfl, rfl⟩ := analyze_ok catalog types options hok
  have copies : w.index.Copies catalog := visitUnit_copies hw
  have ok : w.index.SchemaTablesOk := (strides_visitUnit hw).schemaTables
    (sound_start env u.notes) (schemaTables_start env u.notes)
  refine ⟨fun n v e he kind asked unclaimed found => ?_,
    fun n v e name field he kind keyword unhinted qualified unclaimed found => ?_,
    fun t table found schema => ?_,
    fun t t' table table' found found' schema schema' => copies.sole ok found found' schema schema',
    fun t table b b' found schema hb hb' => ?_⟩
  · obtain ⟨t, b, serves, symbol⟩ := visitUnit_record hw he kind asked unclaimed found
    obtain ⟨table, htable, copy⟩ := copies.of_serves undotted found serves
    exact ⟨t, table, b, htable, copy, serves.isDefault, symbol⟩
  · obtain ⟨t, b, serves, reaches⟩ :=
      visitUnit_field hw he kind keyword unhinted qualified unclaimed found
    obtain ⟨table, htable, copy⟩ := copies.of_serves undotted found serves
    exact ⟨t, table, b, htable, copy, serves.isDefault, reaches⟩
  · obtain ⟨name, e, he, -, copy⟩ := copies.of_schema ok found schema
    exact ⟨name, e, he, copy⟩
  · have isSchema := isSchema_iff.2 ⟨table, found, schema⟩
    have first := ok.sole t b isSchema hb
    rw [ok.sole t b' isSchema hb', Option.some.injEq] at first
    exact first.symm

/-- A temp-table like a catalog table, and a field that is qualified by the name of that table. -/
def copiedSample : ParseTree := .ofRows [
  (0, .defineTempTable, ""), (1, .identifier, "tt"), (1, .tableLike, ""), (3, .record, "SalesRep"),
  (0, .expression, ""), (5, .field, "SalesRep.SalesRep")]

/-- In the sample, the record and the field both lead to the one copy of the catalog table. -/
theorem analyze_catalog_salesRep :
    let catalog : Catalog := ⟨[⟨"sports", [Catalog.Sample.salesRep]⟩]⟩
    catalog.Undotted ∧
    ∃ index u table b s, (ofTree copiedSample).analyze catalog {} {} = (.ok index, u) ∧
      index.tables.get? ⟨1⟩ = some table ∧ index.IsCopy table ⟨"sports", Catalog.Sample.salesRep⟩ ∧
      index.defaultTable? b = some ⟨1⟩ ∧ (u.notes.get ⟨4⟩).symbol = some b ∧
      (u.notes.get ⟨6⟩).symbol = some s ∧ index.asFieldBuffer? s = some ⟨b, ⟨0⟩⟩ := by
  intro catalog
  have undotted : catalog.Undotted := by decide
  have found : catalog.table? "SalesRep" = some ⟨"sports", Catalog.Sample.salesRep⟩ := by
    decide +kernel
  refine ⟨undotted, ?_⟩
  obtain ⟨index, hok, field, copied⟩ :=
    exists_analyze_ok_and (u := ofTree copiedSample) catalog {} {}
      (P := fun x => x.fieldNamed? ⟨1⟩ "SalesRep" = some ⟨⟨0⟩, false⟩ ∧
        (x.tables.get? ⟨1⟩).map (fun t => (t.kind, t.database, t.name)) =
          some (.schema, some "sports", "SalesRep"))
      (by decide +kernel)
  obtain ⟨records, fields, -, sole, defaults⟩ := analyze_catalog catalog {} {} undotted hok
  -- both names lead to a table like the second one, which is the only such table
  obtain ⟨second, hsecond, like⟩ := Option.map_eq_some_iff.1 copied
  simp only [Prod.mk.injEq] at like
  obtain ⟨kind, database, name⟩ := like
  have only : ∀ t table, index.tables.get? t = some table →
      index.IsCopy table ⟨"sports", Catalog.Sample.salesRep⟩ → t = ⟨1⟩ := by
    intro t table ht copy
    refine sole t ⟨1⟩ table second ht hsecond copy.kind kind ?_ ?_
    · rw [copy.database, database]
    · rw [copy.name, name]
      rfl
  let env : Env := { tree := copiedSample, catalog }
  have named : (unitEntries env (.blank copiedSample.size)).any (fun e => e.1 = ⟨4⟩ ∧
      e.2.qualifierAt ⟨4⟩ ≠ .tempTableSymbol ∧ e.2.Unclaimed "SalesRep") := by
    decide +kernel
  obtain ⟨⟨n, v⟩, he, h⟩ := List.any_eq_true.1 named
  obtain ⟨rfl, asked, unclaimed⟩ := of_decide_eq_true h
  obtain ⟨t, table, b, ht, copy, isDefault, symbol⟩ :=
    records ⟨4⟩ v _ he (by decide) asked unclaimed found
  have qualified : (unitEntries env (.blank copiedSample.size)).any (fun e => e.1 = ⟨6⟩ ∧
      e.2.hinted? (e.2.hintAt ⟨6⟩) = none ∧ e.2.Unclaimed "SalesRep") := by
    decide +kernel
  obtain ⟨⟨n', v'⟩, he', h'⟩ := List.any_eq_true.1 qualified
  obtain ⟨rfl, unhinted, unclaimed'⟩ := of_decide_eq_true h'
  obtain ⟨t', table', b', ht', copy', isDefault', reaches⟩ :=
    fields ⟨6⟩ v' _ "SalesRep" "SalesRep" he' (by decide) (by decide) unhinted (by decide)
      unclaimed' found
  obtain rfl := only t table ht copy
  obtain rfl := only t' table' ht' copy'
  obtain rfl := defaults _ table b b' ht copy.kind isDefault isDefault'
  obtain ⟨s, hs, reach⟩ := reaches _ field
  exact ⟨index, _, table, b, s, hok, ht, copy, isDefault, symbol, hs, reach⟩

end CompilationUnit

end AblResolve
