import AblResolve.Proofs.DeedsOfOperations
import AblResolve.Proofs.EnterReferences
/-!
How lookups end. Records and fields are searched for in one place after the other. For each of these
lookups there is a relation with one case for every place at which it can stop; what is to be shown
of lookups that succeed is shown case by case.
-/
namespace AblResolve.Walk

open UnitIndex

variable {env : Env} {n : NodeId} {name before last : String} {b : SymbolId} {f : FieldId}
  {id : BufferScopeId} {binding : Bool} {r : Option FieldLookup} {v w w' : Walk}

/-! ### Records -/

/-- How the lookup of a catalog table ends: its default buffer is found, or the catalog does not
have the table. -/
inductive SchemaEnd (env : Env) (name : String) (w : Walk) : Option SymbolId → Walk → Prop
  | unlisted (unlisted : env.catalog.table? name = none) : SchemaEnd env name w none w
  | offered {e : Catalog.Entry} {t : TableId} {b : SymbolId} {v w' : Walk}
      (listed : env.catalog.table? name = some e) (loads : schemaTable e w = .ok t v)
      (offers : defaultBuffer t v = .ok b w') : SchemaEnd env name w (some b) w'

theorem schemaBuffer?_end {r : Option SymbolId} (hok : schemaBuffer? env name w = .ok r w') :
    SchemaEnd env name w r w' := by
  unfold schemaBuffer? at hok
  cases listed : env.catalog.table? name with
  | none =>
    rw [listed] at hok
    cases hok
    exact .unlisted listed
  | some e =>
    rw [listed] at hok
    obtain ⟨t, v, loads, hrest⟩ := bind_ok.1 hok
    obtain ⟨b, w₁, offers, hpure⟩ := bind_ok.1 hrest
    cases hpure
    exact .offered listed loads offers

/-- How the lookup of a buffer ends: it is one in sight, that of a table of the unit, or else that
of a catalog table. -/
inductive BufferEnd (env : Env) (name : String) (w : Walk) : Option SymbolId → Walk → Prop
  | named {b : SymbolId} (found : w.index.resolve? w.scope .buffer name = some b) :
      BufferEnd env name w (some b) w
  | table {b : SymbolId} (unnamed : w.index.resolve? w.scope .buffer name = none)
      (found : w.index.findIn? rootScope .table name = some b) : BufferEnd env name w (some b) w
  | schema {r : Option SymbolId} {w' : Walk}
      (unnamed : w.index.resolve? w.scope .buffer name = none)
      (noTable : w.index.findIn? rootScope .table name = none)
      (find : schemaBuffer? env name w = .ok r w') : BufferEnd env name w r w'

theorem findBuffer?_end {r : Option SymbolId} (hs : Sound w)
    (hok : findBuffer? env name .buffer w = .ok r w') : BufferEnd env name w r w' := by
  unfold findBuffer? at hok
  obtain ⟨named, w₁, hnamed, hrest⟩ := bind_ok.1 hok
  obtain ⟨rfl, rfl⟩ := ((ends_namedBuffer? (E := Never)
    (Q := fun r v => r = w.index.resolve? w.scope .buffer name ∧ v = w) hs name).2
      ⟨rfl, rfl⟩).ok hnamed
  cases named : w₁.index.resolve? w₁.scope .buffer name with
  | some b =>
    rw [named] at hrest
    cases hrest
    exact .named named
  | none =>
    rw [named] at hrest
    obtain ⟨found, w₂, hfound, hrest⟩ := bind_ok.1 hrest
    cases hfound
    cases table : w₁.index.findIn? rootScope .table name with
    | some b =>
      rw [table] at hrest
      cases hrest
      exact .table named table
    | none =>
      rw [table] at hrest
      exact .schema named table hrest

/-! ### Fields of buffers in sight -/

theorem boundField?_eq_some {x : UnitIndex} {block : BlockId} {found : Text.Match FieldId}
    (h : boundField? x block name = some (b, found, id)) : x.bufferField? b name = some found := by
  obtain ⟨id', -, hbind⟩ := List.exists_of_findSome?_eq_some h
  obtain ⟨binding, -, hmap⟩ := Option.bind_eq_some_iff.1 hbind
  obtain ⟨field, hfield, heq⟩ := Option.map_eq_some_iff.1 hmap
  cases heq
  exact hfield

theorem visibleField?_eq_some {x : UnitIndex} {scope : ScopeId} {found : Text.Match FieldId}
    (h : visibleField? x scope name = some (b, found)) : x.bufferField? b name = some found := by
  obtain ⟨b', -, hmap⟩ := List.exists_of_findSome?_eq_some h
  obtain ⟨field, hfield, heq⟩ := Option.map_eq_some_iff.1 hmap
  cases heq
  exact hfield

/-- From `w` to `w'`, field `f` of buffer `b` is reached as symbol `s`. The buffer can be bound; if
the lookup binds then it has been bound first, and `bound` is its binding. -/
structure Obtains (env : Env) (n : NodeId) (binding : Bool) (w : Walk) (b : SymbolId) (f : FieldId)
    (bound : Option BufferScopeId) (s : SymbolId) (w' : Walk) : Prop where
  reach : ∃ id v, bindReference b w = .ok id v ∧ bound = (if binding then some id else none) ∧
    fieldBuffer b f (if binding then v else w) = .ok s w'
  moves : Moves env n w w'
  reached : w'.index.asFieldBuffer? s = some ⟨b, f⟩

theorem Obtains.calm {l : Licence} {bound : Option BufferScopeId} {s : SymbolId}
    (h : Obtains env n binding w b f bound s w') : Calm l w w' := by
  obtain ⟨id, v, bind, -, reach⟩ := h.reach
  have reaches : Calm l (if binding then v else w) w' := Calmly.fieldBuffer b f _ _ _ reach
  cases binding with
  | true => exact (Calmly.bindReference b _ _ _ bind).trans reaches
  | false => exact reaches

theorem map_of_ok {α β : Type} {m : WalkM α} {g : α → β} {a : α} (h : m w = .ok a v) :
    (g <$> m) w = .ok (g a) v := by
  show EStateM.map g m w = _
  rw [EStateM.map, h]

/-- What comes after a buffer has been bound, if the lookup binds. -/
theorem bindIf_eq {α : Type} {k : Option BufferScopeId → WalkM α}
    (bound : bindReference b w = .ok id v) :
    (if binding = true then (some <$> bindReference b) >>= k else pure none >>= k) w =
      k (if binding then some id else none) (if binding then v else w) := by
  cases binding with
  | true => exact bind_of_ok (map_of_ok bound)
  | false => rfl

/-- A field that has been found in the table of a buffer in sight. -/
theorem obtains_ok {α : Type} {a : α} {g : Option BufferScopeId → SymbolId → WalkM α}
    (env : Env) (n : NodeId) (hs : Sound w) (offers : w.Offers b) (carries : w.index.Carries b f)
    (hok : (if binding = true then
        (some <$> bindReference b) >>= fun bound => fieldBuffer b f >>= g bound
      else pure none >>= fun bound => fieldBuffer b f >>= g bound) w = .ok a w') :
    ∃ bound s v, Obtains env n binding w b f bound s v ∧ g bound s v = .ok a w' := by
  obtain ⟨id, v, bind, moves, -⟩ := (ends_bindReference env n hs offers).exists_ok
  rw [bindIf_eq bind] at hok
  obtain ⟨s, w₁, reach, hrest⟩ := bind_ok.1 hok
  have moved : Moves env n w (if binding then v else w) := by
    cases binding with
    | true => exact moves
    | false => exact .refl
  obtain ⟨moves', reached, -⟩ := (ends_fieldBuffer env n (moved.runs.sound hs)
    (Moves.carries env n moved carries)).ok reach
  exact ⟨_, s, w₁, ⟨⟨id, v, bind, rfl, reach⟩, moved.trans moves', reached⟩, hrest⟩

/-- How the lookup of a field in one buffer ends. -/
inductive OwnFieldEnd (env : Env) (n : NodeId) (b : SymbolId) (name : String) (w : Walk) :
    Option FieldLookup → Walk → Prop
  | field {s : SymbolId} {found : Text.Match FieldId} {w' : Walk}
      (has : w.index.bufferField? b (Text.lastSegment name) = some found)
      (moves : Moves env n w w') (reached : w'.index.asFieldBuffer? s = some ⟨b, found.item⟩) :
      OwnFieldEnd env n b name w (some {
        symbol := s
        unqualified := (Text.splitLast? name).isNone
        abbreviated := found.abbreviated }) w'
  | noField (lacks : w.index.bufferField? b (Text.lastSegment name) = none) :
      OwnFieldEnd env n b name w none w

theorem fieldOfBuffer?_end (env : Env) (n : NodeId) (hs : Sound w)
    (hok : fieldOfBuffer? b name w = .ok r w') : OwnFieldEnd env n b name w r w' := by
  unfold fieldOfBuffer? at hok
  obtain ⟨x, w₁, hx, hrest⟩ := bind_ok.1 hok
  cases hx
  cases has : w.index.bufferField? b (Text.lastSegment name) with
  | none =>
    rw [has] at hrest
    cases hrest
    exact .noField has
  | some found =>
    rw [has] at hrest
    obtain ⟨s, w₁, reach, hpure⟩ := bind_ok.1 hrest
    cases hpure
    obtain ⟨moves, reached, -⟩ :=
      (ends_fieldBuffer env n hs (carries_of_bufferField? has)).ok reach
    exact .field has moves reached

/-! ### Fields by their names -/

/-- How the lookup of a name with a dot ends, `before` being what stands before the last one. -/
inductive QualifiedEnd (env : Env) (n : NodeId) (before last : String) (binding : Bool) (w : Walk) :
    Option FieldLookup → Walk → Prop
  | noBuffer {v : Walk} (find : findBuffer? env before .buffer w = .ok none v) :
      QualifiedEnd env n before last binding w none v
  | noField {b : SymbolId} {v : Walk} (find : findBuffer? env before .buffer w = .ok (some b) v)
      (lacks : v.index.bufferField? b last = none) : QualifiedEnd env n before last binding w none v
  | field {b s : SymbolId} {found : Text.Match FieldId} {bound : Option BufferScopeId} {v w' : Walk}
      (find : findBuffer? env before .buffer w = .ok (some b) v)
      (has : v.index.bufferField? b last = some found)
      (obtains : Obtains env n binding v b found.item bound s w') :
      QualifiedEnd env n before last binding w (some {
        symbol := s
        bufferScope := bound
        abbreviated := found.abbreviated || isAbbreviatedTable w'.index b before }) w'

theorem lookupQualified?_end (n : NodeId) (hs : Sound w)
    (hok : lookupQualified? env before last binding w = .ok r w') :
    QualifiedEnd env n before last binding w r w' := by
  unfold lookupQualified? at hok
  obtain ⟨buffer, w₁, find, hrest⟩ := bind_ok.1 hok
  cases buffer with
  | none =>
    cases hrest
    exact .noBuffer find
  | some b =>
    obtain ⟨moves, offers, -⟩ := (ends_findBuffer? env n hs before .buffer).ok find
    obtain ⟨x, w₂, hx, hrest⟩ := bind_ok.1 hrest
    cases hx
    cases has : w₁.index.bufferField? b last with
    | none =>
      rw [has] at hrest
      cases hrest
      exact .noField find has
    | some found =>
      rw [has] at hrest
      obtain ⟨bound, s, w₂, obtains, hpure⟩ := obtains_ok env n (moves.runs.sound hs)
        (offers b rfl) (carries_of_bufferField? has) hrest
      cases hpure
      exact .field find has obtains

/-- How the lookup of a name without a dot ends. -/
inductive BareEnd (env : Env) (n : NodeId) (name : String) (binding : Bool) (w : Walk) :
    Option FieldLookup → Walk → Prop
  | plain {s : SymbolId} (found : plainSymbol? w.index w.scope name = some s) :
      BareEnd env n name binding w (some { symbol := s }) w
  | bound {b s : SymbolId} {found : Text.Match FieldId} {id : BufferScopeId} {w' : Walk}
      (field : boundField? w.index w.block name = some (b, found, id))
      (reach : fieldBuffer b found.item w = .ok s w') (moves : Moves env n w w')
      (reached : w'.index.asFieldBuffer? s = some ⟨b, found.item⟩) :
      BareEnd env n name binding w (some {
        symbol := s
        bufferScope := if binding then some id else none
        unqualified := true
        abbreviated := found.abbreviated }) w'
  | visible {b s : SymbolId} {found : Text.Match FieldId} {bound : Option BufferScopeId} {w' : Walk}
      (field : visibleField? w.index w.scope name = some (b, found))
      (obtains : Obtains env n binding w b found.item bound s w') :
      BareEnd env n name binding w (some {
        symbol := s
        bufferScope := bound
        unqualified := true
        abbreviated := found.abbreviated }) w'
  | nothing : BareEnd env n name binding w none w

theorem lookupBare?_end (env : Env) (n : NodeId) (hs : Sound w)
    (hok : lookupBare? name binding w = .ok r w') : BareEnd env n name binding w r w' := by
  unfold lookupBare? at hok
  obtain ⟨x, w₁, hx, hrest⟩ := bind_ok.1 hok
  cases hx
  obtain ⟨scope, w₂, hscope, hrest⟩ := bind_ok.1 hrest
  obtain ⟨rfl, rfl⟩ := currentScope_ok hscope
  cases hplain : plainSymbol? w.index w.scope name with
  | some s =>
    rw [hplain] at hrest
    cases hrest
    exact .plain hplain
  | none =>
    rw [hplain] at hrest
    obtain ⟨block, w₃, hblock, hrest⟩ := bind_ok.1 hrest
    obtain ⟨rfl, rfl⟩ := ((ends_currentBlock (E := Never)
      (Q := fun b v => b = w.block ∧ v = w) hs).2 ⟨rfl, rfl⟩).ok hblock
    cases hbound : boundField? w₃.index w₃.block name with
    | some p =>
      obtain ⟨b, found, id⟩ := p
      rw [hbound] at hrest
      obtain ⟨s, w₄, reach, hpure⟩ := bind_ok.1 hrest
      cases hpure
      obtain ⟨moves, reached, -⟩ := (ends_fieldBuffer env n hs
        (carries_of_bufferField? (boundField?_eq_some hbound))).ok reach
      exact .bound hbound reach moves reached
    | none =>
      rw [hbound] at hrest
      cases hvisible : visibleField? w₃.index w₃.scope name with
      | none =>
        rw [hvisible] at hrest
        cases hrest
        exact .nothing
      | some p =>
        obtain ⟨b, found⟩ := p
        rw [hvisible] at hrest
        obtain ⟨offers, carries⟩ := hs.visibleField? hvisible
        obtain ⟨bound, s, w₄, obtains, hpure⟩ := obtains_ok env n hs offers carries hrest
        cases hpure
        exact .visible hvisible obtains

/-- How the resolution of field `n` ends: a hint points to the buffer in which the field is looked
up, or else it is looked up by its name alone. -/
inductive ResolutionEnd (env : Env) (n : NodeId) (q : Qualifier) (h : TableHint) (w : Walk) :
    Walk → Prop
  | hinted {b : SymbolId} {l : FieldLookup} {v w' : Walk} (hint : w.hinted? h = some b)
      (find : fieldOfBuffer? b (env.tree.text n) w = .ok (some l) v)
      (annotates : annotateField n l q v = .ok () w') : ResolutionEnd env n q h w w'
  | lacking {b : SymbolId} {w' : Walk} (hint : w.hinted? h = some b)
      (lacks : w.index.bufferField? b (Text.lastSegment (env.tree.text n)) = none)
      (misses : missingField env n b (env.tree.text n) w = .ok () w') : ResolutionEnd env n q h w w'
  | found {l : FieldLookup} {v w' : Walk} (unhinted : w.hinted? h = none)
      (find : lookupField? env (env.tree.text n) (q ≠ .symbol) w = .ok (some l) v)
      (annotates : annotateField n l q v = .ok () w') : ResolutionEnd env n q h w w'
  | unknown {v w' : Walk} (unhinted : w.hinted? h = none)
      (find : lookupField? env (env.tree.text n) (q ≠ .symbol) w = .ok none v)
      (notes : addUnresolved n (env.tree.text n) v = .ok () w') : ResolutionEnd env n q h w w'

theorem resolveField_end {q : Qualifier} {h : TableHint} (hs : Sound w)
    (hok : resolveField env n q h w = .ok () w') : ResolutionEnd env n q h w w' := by
  unfold resolveField at hok
  obtain ⟨hinted, w₁, hhinted, hrest⟩ := bind_ok.1 hok
  obtain ⟨rfl, rfl⟩ : hinted = w.hinted? h ∧ w₁ = w :=
    ((ends_hintedBuffer? (E := Never) (Q := fun r v => r = w.hinted? h ∧ v = w) h).2
      ⟨rfl, rfl⟩).ok hhinted
  cases hint : w₁.hinted? h with
  | some b =>
    rw [hint] at hrest
    obtain ⟨l, v, find, hrest⟩ := bind_ok.1 hrest
    cases l with
    | some l => exact .hinted hint find hrest
    | none =>
      cases fieldOfBuffer?_end env n hs find with
      | noField lacks => exact .lacking hint lacks hrest
  | none =>
    rw [hint] at hrest
    obtain ⟨l, v, find, hrest⟩ := bind_ok.1 hrest
    cases l with
    | some l => exact .found hint find hrest
    | none => exact .unknown hint find hrest

end AblResolve.Walk
