import AblResolve.Proofs.Passage
/-!
Name tables. A name leads to an attached symbol of its scope, in the namespace of its kind, and no
name of a scope leads to two symbols of one namespace. A symbol loses its name only to one that is
attached later. What is still pending in the end are the variables and named buffers in signatures
of events.
-/
namespace AblResolve

/-! ### What names depend on -/

/-- All that decides which name leads to a symbol, but for the kinds of tables. -/
def Symbol.place (s : Symbol) :
    String × ScopeId × Bool × Option Namespace × Option TableId × Bool :=
  (s.name, s.scope, s.attached, s.kind.space?, s.defaultTable?,
    (s.asRoutine?.map fun r => decide (r.kind = .program)).getD false)

namespace NameTable

/-- No two entries are for the same name in one namespace. -/
def Distinct (entries : List NameEntry) : Prop :=
  entries.Pairwise fun e e' => e.isFor e'.space e'.name = false

theorem isFor_trans {a b c : NameEntry} (h : a.isFor b.space b.name = true)
    (k : b.isFor c.space c.name = true) : a.isFor c.space c.name = true := by
  simp only [NameEntry.isFor, Bool.and_eq_true, decide_eq_true_eq] at h k ⊢
  exact ⟨h.1.trans k.1, Text.same_trans h.2 k.2⟩

theorem distinct_put {e : NameEntry} {entries : List NameEntry} (h : Distinct entries) :
    Distinct (put e entries).2 := by
  induction entries with
  | nil => exact List.pairwise_singleton _ e
  | cons old rest ih =>
    obtain ⟨first, others⟩ := List.pairwise_cons.1 h
    unfold put
    split
    · rename_i same
      refine List.pairwise_cons.2 ⟨fun e' he' => ?_, others⟩
      -- what is for the new name is for the old one, too
      refine Bool.eq_false_iff.2 fun clash => ?_
      exact absurd (isFor_trans same clash) (Bool.eq_false_iff.1 (first e' he'))
    · rename_i apart
      refine List.pairwise_cons.2 ⟨fun e' he' => ?_, ih others⟩
      rcases mem_put he' with he' | rfl
      · exact first e' he'
      · exact Bool.eq_false_iff.2 apart

theorem distinct_insert {t : NameTable} (space : Namespace) (name : String) (symbol : SymbolId)
    (h : Distinct t.entries) : Distinct (t.insert space name symbol).2.entries :=
  distinct_put h

end NameTable

namespace UnitIndex

variable {x y z : UnitIndex} {s s' : Symbol} {space : Namespace}

theorem spaceOf?_eq (x : UnitIndex) (s : Symbol) : x.spaceOf? s =
    if (s.asRoutine?.map fun r => decide (r.kind = .program)).getD false then none
    else match s.defaultTable? with
      | some t => (x.tables.get? t).bind fun t => if t.kind = .schema then none else some .table
      | none => s.kind.space? := by
  unfold spaceOf? Symbol.defaultTable? Symbol.asRoutine?
  cases hk : s.kind with
  | routine r => by_cases h : r.kind = .program <;> simp [h, SymbolKind.space?]
  | tableBuffer b => by_cases h : b.isDefault = true <;> simp [h, SymbolKind.space?]
  | _ => rfl

theorem spaceOf?_of_place (h : s'.place = s.place) : x.spaceOf? s' = x.spaceOf? s := by
  simp only [Symbol.place, Prod.mk.injEq] at h
  rw [spaceOf?_eq, spaceOf?_eq, h.2.2.2.2.2, h.2.2.2.2.1, h.2.2.2.1]

/-- The namespace of a name does not change while the tables keep their kinds. -/
theorem spaceOf?_keeps (kinds : x.tables.Keeps Table.kind y.tables)
    (h : x.spaceOf? s = some space) : y.spaceOf? s = some space := by
  rw [spaceOf?_eq] at h ⊢
  cases ht : s.defaultTable? with
  | none => rwa [ht] at h
  | some t =>
    rw [ht] at h
    split at h
    · cases h
    · rename_i plain
      rw [if_neg plain]
      obtain ⟨table, htable, hspace⟩ := Option.bind_eq_some_iff.1 h
      obtain ⟨table', htable', same⟩ := kinds t table htable
      dsimp only
      rw [htable', Option.bind_some, same]
      exact hspace

/-- The table of a default buffer whose name leads to it. -/
theorem exists_defaultTable (h : x.spaceOf? s = some space) {t : TableId}
    (ht : s.defaultTable? = some t) : ∃ table, x.tables.get? t = some table := by
  rw [spaceOf?_eq, ht] at h
  split at h
  · cases h
  · obtain ⟨table, htable, -⟩ := Option.bind_eq_some_iff.1 h
    exact ⟨table, htable⟩

/-- No name leads to the symbol: it is a field of a buffer or the default buffer of a table of the
catalog. -/
def Unnamed (x : UnitIndex) (s : Symbol) : Prop :=
  s.kind.space? = none ∨ ∃ t table, s.defaultTable? = some t ∧ x.tables.get? t = some table ∧
    table.kind = .schema

theorem Unnamed.spaceOf? (h : x.Unnamed s) : x.spaceOf? s = none := by
  rcases h with h | ⟨t, table, ht, htable, hkind⟩
  · cases hs : x.spaceOf? s with
    | none => rfl
    | some space =>
      rw [space?_of_spaceOf? hs] at h
      cases h
  · rw [spaceOf?_eq, ht]
    split
    · rfl
    · simp [htable, hkind]

/-- A symbol that is new and has not been attached by name: it is pending, or references have
brought it into being. -/
def Newborn (x : UnitIndex) (s : Symbol) : Prop :=
  (s.attached = false ∧
      ∃ space, x.spaceOf? s = some space ∧ (space = .table → s.scope = rootScope)) ∨
    s.attached = true ∧ x.Unnamed s

theorem Newborn.keeps (h : x.Newborn s) (kinds : x.tables.Keeps Table.kind y.tables)
    (same : s'.place = s.place) : y.Newborn s' := by
  have space := spaceOf?_of_place (x := y) same
  simp only [Symbol.place, Prod.mk.injEq] at same
  rcases h with ⟨pending, namespace_, named, root⟩ | ⟨attached, unnamed⟩
  · exact .inl ⟨same.2.2.1.trans pending, namespace_, space.trans (spaceOf?_keeps kinds named),
      fun h => same.2.1.trans (root h)⟩
  · refine .inr ⟨same.2.2.1.trans attached, ?_⟩
    rcases unnamed with none | ⟨t, table, ht, htable, hkind⟩
    · exact .inl (same.2.2.2.1.trans none)
    · obtain ⟨table', htable', kept⟩ := kinds t table htable
      exact .inr ⟨t, table', same.2.2.2.2.1.trans ht, htable', kept.trans hkind⟩

theorem Newborn.table (h : x.Newborn s) {t : TableId} (ht : s.defaultTable? = some t) :
    ∃ table, x.tables.get? t = some table := by
  rcases h with ⟨-, space, named, -⟩ | ⟨-, none | ⟨t', table, ht', htable, -⟩⟩
  · exact exists_defaultTable named ht
  · unfold Symbol.defaultTable? at ht
    unfold SymbolKind.space? at none
    split at none <;> simp_all
  · rw [ht] at ht'
    cases ht'
    exact ⟨table, htable⟩

/-! ### What leaves the names alone -/

/-- From `x` to `y` no symbol is attached by name. -/
structure Still (x y : UnitIndex) : Prop where
  symbols : x.symbols.Grows Symbol.place y.Newborn y.symbols
  scopes : x.scopes.Grows Scope.names (·.names = {}) y.scopes
  kinds : x.tables.Keeps Table.kind y.tables
  listed : ∀ p ∈ y.schemaTables, p ∈ x.schemaTables ∨
    ∃ table, y.tables.get? p.2 = some table ∧ table.kind = .schema

theorem Still.trans (h : x.Still y) (k : y.Still z) : x.Still z where
  symbols := by
    refine ⟨h.symbols.keeps.trans k.symbols.keeps, fun i v hv => ?_⟩
    rcases k.symbols.new i v hv with hi | new
    · obtain ⟨u, hu⟩ := Arena.exists_get? hi
      obtain ⟨v', hv', same⟩ := k.symbols.keeps i u hu
      rw [hv] at hv'
      cases hv'
      exact (h.symbols.new i u hu).imp_right fun new => new.keeps k.kinds same
    · exact .inr new
  scopes := h.scopes.trans k.scopes fun _ _ new same => same.trans new
  kinds := h.kinds.trans k.kinds
  listed p hp := by
    rcases k.listed p hp with hp | found
    · rcases h.listed p hp with hp | ⟨table, htable, hkind⟩
      · exact .inl hp
      · obtain ⟨table', htable', same⟩ := k.kinds p.2 table htable
        exact .inr ⟨table', htable', same.trans hkind⟩
    · exact .inr found

/-! ### Tidy name tables -/

/-- An entry in the name table of scope `s` leads to an attached symbol of the scope with that name,
in the namespace of its kind. Only the root has tables of the unit. -/
structure EntryOk (x : UnitIndex) (s : ScopeId) (e : NameEntry) : Prop where
  nonempty : e.name ≠ ""
  leads : ∃ symbol, x.symbols.get? e.symbol = some symbol ∧ symbol.attached = true ∧
    symbol.scope = s ∧ symbol.name = e.name ∧ x.spaceOf? symbol = some e.space
  root : e.space = .table → s = rootScope

/-- The name tables are in order, and whatever is pending can be attached. -/
structure Tidy (x : UnitIndex) : Prop where
  listed : ∀ p ∈ x.schemaTables, ∃ table, x.tables.get? p.2 = some table ∧ table.kind = .schema
  tables : ∀ i s t, x.symbols.get? i = some s → s.defaultTable? = some t →
    ∃ table, x.tables.get? t = some table
  pending : ∀ i s, x.symbols.get? i = some s → s.attached = false →
    ∃ space, x.spaceOf? s = some space ∧ (space = .table → s.scope = rootScope)
  entries : ∀ s scope, x.scopes.get? s = some scope → ∀ e ∈ scope.names.entries, x.EntryOk s e
  distinct : ∀ s scope, x.scopes.get? s = some scope → NameTable.Distinct scope.names.entries

theorem EntryOk.still {i : ScopeId} {e : NameEntry} (h : x.EntryOk i e) (still : x.Still y) :
    y.EntryOk i e := by
  obtain ⟨symbol, hget, attached, scope, name, space⟩ := h.leads
  obtain ⟨symbol', hget', same⟩ := still.symbols.keeps _ _ hget
  have hspace := (spaceOf?_of_place (x := y) same).trans (spaceOf?_keeps still.kinds space)
  simp only [Symbol.place, Prod.mk.injEq] at same
  exact ⟨h.nonempty, ⟨symbol', hget', same.2.2.1.trans attached, same.2.1.trans scope,
    same.1.trans name, hspace⟩, h.root⟩

theorem Still.scope (h : x.Still y) {i : ScopeId} {scope : Scope}
    (hscope : y.scopes.get? i = some scope) :
    (∃ old, x.scopes.get? i = some old ∧ scope.names = old.names) ∨ scope.names = {} := by
  rcases h.scopes.new i scope hscope with hlt | new
  · obtain ⟨old, hold⟩ := Arena.exists_get? hlt
    obtain ⟨scope', hscope', same⟩ := h.scopes.keeps i old hold
    rw [hscope] at hscope'
    cases hscope'
    exact .inl ⟨old, hold, same⟩
  · exact .inr new

/-- A symbol is new, or it was there before. -/
theorem Still.symbol (h : x.Still y) {i : SymbolId} (hs : y.symbols.get? i = some s) :
    (∃ old, x.symbols.get? i = some old ∧ s.place = old.place) ∨ y.Newborn s := by
  rcases h.symbols.new i s hs with hlt | new
  · obtain ⟨old, hold⟩ := Arena.exists_get? hlt
    obtain ⟨s', hs', same⟩ := h.symbols.keeps i old hold
    rw [hs] at hs'
    cases hs'
    exact .inl ⟨old, hold, same⟩
  · exact .inr new

theorem Tidy.still (h : x.Tidy) (still : x.Still y) : y.Tidy where
  listed p hp := by
    rcases still.listed p hp with hp | found
    · obtain ⟨table, htable, hkind⟩ := h.listed p hp
      obtain ⟨table', htable', same⟩ := still.kinds p.2 table htable
      exact ⟨table', htable', same.trans hkind⟩
    · exact found
  tables i s t hs ht := by
    rcases still.symbol hs with ⟨old, hold, same⟩ | new
    · simp only [Symbol.place, Prod.mk.injEq] at same
      obtain ⟨table, htable⟩ := h.tables i old t hold (same.2.2.2.2.1.symm.trans ht)
      obtain ⟨table', htable', -⟩ := still.kinds t table htable
      exact ⟨table', htable'⟩
    · exact new.table ht
  pending i s hs pending := by
    rcases still.symbol hs with ⟨old, hold, same⟩ | ⟨-, named⟩ | ⟨attached, -⟩
    · have hspace := spaceOf?_of_place (x := y) same
      simp only [Symbol.place, Prod.mk.injEq] at same
      obtain ⟨space, named, root⟩ := h.pending i old hold (same.2.2.1.symm.trans pending)
      exact ⟨space, hspace.trans (spaceOf?_keeps still.kinds named),
        fun htable => same.2.1.trans (root htable)⟩
    · exact named
    · rw [pending] at attached
      cases attached
  entries i scope hscope e he := by
    rcases still.scope hscope with ⟨old, hold, same⟩ | new
    · exact (h.entries i old hold e (same ▸ he)).still still
    · rw [new] at he
      cases he
  distinct i scope hscope := by
    rcases still.scope hscope with ⟨old, hold, same⟩ | new
    · exact same ▸ h.distinct i old hold
    · rw [new]
      exact List.Pairwise.nil

variable {i : SymbolId}

/-- The symbols after one has been attached. -/
theorem get?_attached {j : SymbolId} {v : Symbol}
    (h : (x.attached i s space).symbols.get? j = some v) :
    (i = j ∧ ∃ old, x.symbols.get? i = some old ∧ v = { old with attached := true }) ∨
      i ≠ j ∧ x.symbols.get? j = some v := by
  rcases Arena.get?_update_cases h with ⟨rfl, old, hold, rfl⟩ | ⟨hne, h⟩
  · exact .inl ⟨rfl, old, hold, rfl⟩
  · exact .inr ⟨hne, h⟩

theorem attached_get? (i : SymbolId) (s : Symbol) (space : Namespace) {j : SymbolId} {v : Symbol}
    (h : x.symbols.get? j = some v) :
    ∃ v', (x.attached i s space).symbols.get? j = some v' ∧
      v' = { v with attached := v'.attached } ∧ (v.attached = true → v'.attached = true) ∧
        (i ≠ j → v' = v) := by
  show ∃ v', (x.symbols.update i _).get? j = some v' ∧ _
  rw [Arena.get?_update]
  split
  · rename_i hij
    refine ⟨{ v with attached := true }, by rw [h]; rfl, rfl, fun _ => rfl, fun hne => ?_⟩
    exact absurd hij hne
  · exact ⟨v, h, rfl, id, fun _ => rfl⟩

/-- The scopes after a symbol has been attached. -/
theorem scope_attached {j : ScopeId} {scope : Scope}
    (h : (x.attached i s space).scopes.get? j = some scope) :
    ∃ old, x.scopes.get? j = some old ∧
      (scope.names = old.names ∧ (s.name = "" ∨ j ≠ s.scope) ∨
        s.name ≠ "" ∧ j = s.scope ∧ scope.names = (old.names.insert space s.name i).2) := by
  unfold attached at h
  dsimp only at h
  split at h
  · rename_i hempty
    exact ⟨scope, h, .inl ⟨rfl, .inl hempty⟩⟩
  · rename_i hne
    rcases Arena.get?_update_cases h with ⟨rfl, old, hold, rfl⟩ | ⟨hj, h⟩
    · exact ⟨old, hold, .inr ⟨hne, rfl, rfl⟩⟩
    · exact ⟨scope, h, .inl ⟨rfl, .inr (Ne.symm hj)⟩⟩

theorem attached_scope (i : SymbolId) (space : Namespace) (hne : s.name ≠ "") {scope : Scope}
    (h : x.scopes.get? s.scope = some scope) :
    ∃ scope', (x.attached i s space).scopes.get? s.scope = some scope' ∧
      scope'.names = (scope.names.insert space s.name i).2 := by
  unfold attached
  dsimp only
  rw [if_neg hne, Arena.get?_update, if_pos rfl, h]
  exact ⟨_, rfl, rfl⟩

theorem attached_scope_of_ne {j : ScopeId} (other : ¬ (j = s.scope ∧ s.name ≠ "")) :
    (x.attached i s space).scopes.get? j = x.scopes.get? j := by
  unfold attached
  dsimp only
  split
  · rfl
  · rename_i hne
    rw [Arena.get?_update, if_neg fun heq => other ⟨heq.symm, hne⟩]

theorem EntryOk.attached {j : ScopeId} {e : NameEntry} (h : x.EntryOk j e) :
    (x.attached i s space).EntryOk j e := by
  obtain ⟨symbol, hget, isAttached, scope, name, hspace⟩ := h.leads
  obtain ⟨symbol', hget', same, kept, -⟩ := attached_get? i s space hget
  refine ⟨h.nonempty, ⟨symbol', hget', kept isAttached, ?_, ?_, ?_⟩, h.root⟩
  · rw [same, scope]
  · rw [same, name]
  · rw [same]
    exact hspace

/-- A pending symbol may be attached. -/
theorem Tidy.attached (h : x.Tidy) (found : x.symbols.get? i = some s)
    (pending : s.attached = false) (leads : s.name ≠ "" → s.kind.space? = some space) :
    (x.attached i s space).Tidy where
  listed := h.listed
  tables j v t hv ht := by
    rcases get?_attached hv with ⟨-, old, hold, rfl⟩ | ⟨-, hv⟩
    · exact h.tables i old t hold ht
    · exact h.tables j v t hv ht
  pending j v hv hpending := by
    rcases get?_attached hv with ⟨-, old, hold, rfl⟩ | ⟨-, hv⟩
    · cases hpending
    · exact h.pending j v hv hpending
  entries j scope hscope e he := by
    obtain ⟨old, hold, ⟨same, -⟩ | ⟨hne, rfl, same⟩⟩ := scope_attached hscope
    · exact (h.entries j old hold e (same ▸ he)).attached
    · rw [same] at he
      rcases NameTable.mem_entries_insert he with he | rfl
      · exact (h.entries _ old hold e he).attached
      · obtain ⟨space', named, root⟩ := h.pending i s found pending
        have hspace : space' = space := by
          have hleads := leads hne
          rw [space?_of_spaceOf? named] at hleads
          exact Option.some.inj hleads
        subst hspace
        refine ⟨hne, ⟨{ s with attached := true }, ?_, rfl, rfl, rfl, named⟩, root⟩
        show (x.symbols.update i _).get? i = _
        rw [Arena.get?_update, if_pos rfl, found]
        rfl
  distinct j scope hscope := by
    obtain ⟨old, hold, ⟨same, -⟩ | ⟨-, rfl, same⟩⟩ := scope_attached hscope
    · rw [same]
      exact h.distinct j old hold
    · rw [same]
      exact NameTable.distinct_insert _ _ _ (h.distinct _ old hold)

/-! ### Who holds a name -/

/-- At one of the moments in `past`, symbol `i` has been attached, but not yet `h`. -/
def AttachedLater (past : List Walk) (i h : SymbolId) : Prop :=
  ∃ v ∈ past, v.index.IsAttached i ∧ ¬ v.index.IsAttached h

/-- Symbol `i`, as which `s` is found, has its name, or it has lost it to one that has been attached
later. -/
def Leads (past : List Walk) (x : UnitIndex) (i : SymbolId) (s : Symbol) (space : Namespace) :
    Prop :=
  ∃ scope h, x.scopes.get? s.scope = some scope ∧ scope.names.find? space s.name = some h ∧
    (h = i ∨ AttachedLater past i h)

/-- Whatever has been attached by name can be found under its name, or has lost it. -/
def Led (past : List Walk) (x : UnitIndex) : Prop :=
  ∀ i s space, x.symbols.get? i = some s → s.attached = true → s.name ≠ "" →
    x.spaceOf? s = some space → Leads past x i s space

theorem AttachedLater.mono {past past' : List Walk} {h : SymbolId}
    (later : AttachedLater past i h) (sub : past ⊆ past') : AttachedLater past' i h := by
  obtain ⟨v, hv, here⟩ := later
  exact ⟨v, sub hv, here⟩

theorem Leads.mono {past past' : List Walk} (h : Leads past x i s space) (sub : past ⊆ past') :
    Leads past' x i s space := by
  obtain ⟨scope, h, hscope, hfind, held⟩ := h
  exact ⟨scope, h, hscope, hfind, held.imp_right fun later => later.mono sub⟩

/-- A symbol that is attached by name can be found under its name. -/
theorem leads_attached (past : List Walk) (i : SymbolId) {space : Namespace} {s : Symbol}
    (hne : s.name ≠ "") {scope : Scope} (h : x.scopes.get? s.scope = some scope) :
    Leads past (x.attached i s space) i s space := by
  obtain ⟨scope', hscope', names⟩ := attached_scope i space hne h
  refine ⟨scope', i, hscope', ?_, .inl rfl⟩
  rw [names, NameTable.find?_insert, if_pos ⟨rfl, Text.same_refl _⟩]

/-- When `i` is attached, another symbol keeps its name or loses it to `i`, which was not attached
at the moment `v` when the other one was. -/
theorem Leads.attached {past : List Walk} {v : Walk} {j : SymbolId} {u : Symbol}
    {space' : Namespace} (h : Leads past x j u space') (attachedThen : v.index.IsAttached j)
    (notYet : ¬ v.index.IsAttached i) :
    Leads (past ++ [v]) (x.attached i s space) j u space' := by
  obtain ⟨scope, holder, hscope, hfind, held⟩ := h
  have held' := held.imp_right fun later => later.mono (List.subset_append_left past [v])
  by_cases here : u.scope = s.scope ∧ s.name ≠ ""
  · obtain ⟨scope', hscope', names⟩ := attached_scope i space here.2 (here.1 ▸ hscope)
    by_cases clash : space = space' ∧ Text.same s.name u.name = true
    · refine ⟨scope', i, here.1 ▸ hscope', ?_, .inr ⟨v, by simp, attachedThen, notYet⟩⟩
      rw [names, NameTable.find?_insert, if_pos clash]
    · refine ⟨scope', holder, here.1 ▸ hscope', ?_, held'⟩
      rw [names, NameTable.find?_insert, if_neg clash, hfind]
  · exact ⟨scope, holder, (attached_scope_of_ne here).trans hscope, hfind, held'⟩

/-- A symbol with a name that is attached after a still time has been attached before it. -/
theorem Still.attached (still : x.Still y) (tidy : x.Tidy) (hs : y.symbols.get? i = some s)
    (attached : s.attached = true) (named : y.spaceOf? s = some space) :
    ∃ old, x.symbols.get? i = some old ∧ s.place = old.place ∧ old.attached = true ∧
      x.spaceOf? old = some space := by
  rcases still.symbol hs with ⟨old, hold, same⟩ | ⟨pending, -⟩ | ⟨-, unnamed⟩
  · have hspace := spaceOf?_of_place (x := y) same
    have hattached : s.attached = old.attached := by
      simp only [Symbol.place, Prod.mk.injEq] at same
      exact same.2.2.1
    refine ⟨old, hold, same, hattached.symm.trans attached, ?_⟩
    rw [hspace] at named
    -- a default buffer had its table before
    cases hx : x.spaceOf? old with
    | some space' => rw [← named, spaceOf?_keeps still.kinds hx]
    | none =>
      rw [spaceOf?_eq] at hx named
      split at hx
      · rename_i program
        rw [if_pos program] at named
        cases named
      · rename_i plain
        rw [if_neg plain] at named
        cases ht : old.defaultTable? with
        | none =>
          rw [ht] at hx named
          exact hx.symm.trans named
        | some t =>
          rw [ht] at hx named
          obtain ⟨table, htable⟩ := tidy.tables i old t hold ht
          obtain ⟨table', htable', kind⟩ := still.kinds t table htable
          simp only [htable, htable', Option.bind_some, kind] at hx named
          rw [hx] at named
          cases named
  · rw [attached] at pending
    cases pending
  · rw [unnamed.spaceOf?] at named
    cases named

theorem Led.still {past : List Walk} (led : Led past x) (tidy : x.Tidy) (still : x.Still y) :
    Led past y := by
  intro i s space hs attached hname named
  obtain ⟨old, hold, same, hattached, hspace⟩ := still.attached tidy hs attached named
  simp only [Symbol.place, Prod.mk.injEq] at same
  obtain ⟨scope, h, hscope, hfind, held⟩ :=
    led i old space hold hattached (same.1 ▸ hname) hspace
  obtain ⟨scope', hscope', names⟩ := still.scopes.keeps _ scope hscope
  refine ⟨scope', h, by rw [same.2.1, hscope'], ?_, held⟩
  rw [names, same.1, hfind]

end UnitIndex

namespace Walk

open UnitIndex

variable {env : Env} {l : Licence} {w w' : Walk} {ds : List Deed} {past : List Walk}

theorem place_of_core {s s' : Symbol} (h : s'.core = s.core) : s'.place = s.place := by
  have kinds := Symbol.kind_of_core h
  have hprogram : (s'.asRoutine?.map fun r => decide (r.kind = .program)) =
      s.asRoutine?.map fun r => decide (r.kind = .program) := by
    unfold Symbol.asRoutine?
    cases hs : s.kind <;> cases hs' : s'.kind <;>
      simp only [hs, hs', SymbolKind.core, reduceCtorEq, SymbolKind.routine.injEq,
        Routine.mk.injEq] at kinds <;> simp_all
  rw [Symbol.place, Symbol.place, Symbol.name_of_core h, Symbol.scope_of_core h,
    Symbol.attached_of_core h, Symbol.space?_of_core h, Symbol.defaultTable?_of_core h, hprogram]

theorem Calm.still (h : Calm l w w') (tidy : w.index.Tidy) : w.index.Still w'.index where
  symbols := by
    refine ⟨fun i v hv => ?_, fun i v hv => (h.symbols.new i v hv).imp_right fun hidden => ?_⟩
    · obtain ⟨v', hv', same⟩ := h.symbols.keeps i v hv
      exact ⟨v', hv', place_of_core same⟩
    · cases hidden with
      | field attached kind => exact .inr ⟨attached, .inl (by rw [kind]; rfl)⟩
      | default attached kind isDefault mem =>
        obtain ⟨table, htable, hkind⟩ := tidy.listed _ mem
        obtain ⟨table', htable', same⟩ := h.kinds _ table htable
        exact .inr ⟨attached, .inr ⟨_, table', by simp [Symbol.defaultTable?, kind, isDefault],
          htable', same.trans hkind⟩⟩
  scopes := h.scopes
  kinds := h.kinds
  listed p hp := .inl (h.schemaTables ▸ hp)

/-- Deeds other than attaching leave the names alone. -/
theorem Effect.still {d : Deed} (h : Effect env w d w') (apart : ∀ s, d ≠ .attach s) :
    w.index.Still w'.index := by
  have same : w.index.Still w.index :=
    ⟨.refl _ _ _, .refl _ _ _, .refl _ _, fun _ => .inl⟩
  have update : ∀ {i : SymbolId} {f : Symbol → Symbol}, (∀ s, (f s).place = s.place) →
      w.index.Still { w.index with symbols := w.index.symbols.update i f } :=
    fun h => { same with symbols := Arena.grows_update fun v _ => h v }
  cases h with
  | attach => exact absurd rfl (apart _)
  | make pending named root bare =>
    exact { same with symbols := Arena.grows_push (.inl ⟨pending, _, named, root⟩) }
  | sign event s =>
    refine update fun v => ?_
    cases hk : v.kind <;>
      simp [Symbol.signed, Symbol.place, Symbol.defaultTable?, Symbol.asRoutine?,
        SymbolKind.space?, hk]
  | enlist routine s mode =>
    refine update fun v => ?_
    cases hk : v.kind <;>
      simp [Symbol.enlisted, Symbol.place, Symbol.defaultTable?, Symbol.asRoutine?,
        SymbolKind.space?, hk]
  | relocate routine n => exact update fun _ => rfl
  | turn | announce | take => exact same
  | load name found new =>
    refine ⟨.refl _ _ _, .refl _ _ _, Arena.keeps_push _ _ _, fun p hp => ?_⟩
    rcases List.mem_append.1 hp with hp | hp
    · exact .inl hp
    · obtain rfl := List.mem_singleton.1 hp
      exact .inr ⟨_, Arena.get?_push_next _ _, rfl⟩

theorem pending_of_unsettled {x : UnitIndex} {i : SymbolId} {s : Symbol} (h : x.Unsettled i)
    (hs : x.symbols.get? i = some s) : s.attached = false := by
  obtain ⟨s', hs', pending⟩ := h.pending
  rw [hs] at hs'
  cases hs'
  exact pending

theorem attachments_cons {d : Deed} (apart : ∀ s, d ≠ .attach s) :
    attachments (d :: ds) = attachments ds := by
  cases d <;> first | rfl | exact absurd rfl (apart _)

/-- Deeds among which nothing is attached leave the names alone. -/
theorem Properly.still (h : Properly env w ds w') (tidy : w.index.Tidy)
    (none : attachments ds = []) : w.index.Still w'.index := by
  induction h with
  | calm calm => exact calm.still tidy
  | @deed w w₁ w₂ w' d ds before proper effect rest ih =>
    have still₁ := before.still tidy
    have apart : ∀ s, d ≠ .attach s := by
      rintro s rfl
      simp [attachments] at none
    have still₂ := effect.still apart
    rw [attachments_cons apart] at none
    exact (still₁.trans still₂).trans (ih ((tidy.still still₁).still still₂) none)

/-- One symbol is attached between two still times. -/
inductive Attaches (x y : UnitIndex) : Prop
  | attach {u : UnitIndex} {i : SymbolId} {s : Symbol} {space : Namespace} (before : x.Still u)
      (unsettled : u.Unsettled i) (found : u.symbols.get? i = some s)
      (leads : s.name ≠ "" → s.kind.space? = some space ∧
        ∃ scope, u.scopes.get? s.scope = some scope)
      (after : (u.attached i s space).Still y)

/-- What proper deeds do to the names, if they attach at most one symbol. -/
theorem Properly.names (h : Properly env w ds w') (tidy : w.index.Tidy)
    (single : (attachments ds).length ≤ 1) :
    w.index.Still w'.index ∨ Attaches w.index w'.index := by
  induction h with
  | calm calm => exact .inl (calm.still tidy)
  | @deed w w₁ w₂ w' d ds before proper effect rest ih =>
    have still₁ := before.still tidy
    have tidy₁ := tidy.still still₁
    by_cases attaches : ∃ s, d = .attach s
    · obtain ⟨i, rfl⟩ := attaches
      have none : attachments ds = [] := by simpa [attachments] using single
      cases effect with
      | attach found leads =>
        have pending := pending_of_unsettled proper found
        have tidy₂ := tidy₁.attached found pending fun h => (leads h).1
        exact .inr (.attach still₁ proper found leads (rest.still tidy₂ none))
    · have apart : ∀ s, d ≠ .attach s := fun s h => attaches ⟨s, h⟩
      have still₂ := effect.still apart
      rw [attachments_cons apart] at single
      have still := still₁.trans still₂
      rcases ih (tidy.still still) single with later | ⟨before, unsettled, found, leads, after⟩
      · exact .inl (still.trans later)
      · exact .inr (.attach (still.trans before) unsettled found leads after)

theorem Attaches.tidy {x y : UnitIndex} (h : Attaches x y) (tidy : x.Tidy) : y.Tidy := by
  cases h with
  | attach before unsettled found leads after =>
    exact ((tidy.still before).attached found (pending_of_unsettled unsettled found)
      fun h => (leads h).1).still after

/-- When a symbol is attached, it gets its name, and nothing else loses one but to it. -/
theorem Led.attaches {x y : UnitIndex} (led : Led past x) (tidy : x.Tidy) (h : Attaches x y)
    {v : Walk} (now : v.index = x) : Led (past ++ [v]) y := by
  cases h with
  | @attach u i s space before unsettled found leads after =>
    have tidy₁ := tidy.still before
    have pending := pending_of_unsettled unsettled found
    refine Led.still ?_ (tidy₁.attached found pending fun h => (leads h).1) after
    intro j v' space' hj attached hname named
    -- the symbol attached now has not been attached at this moment
    have notYet : ¬ v.index.IsAttached i := by
      rw [now]
      rintro ⟨old, hold, hattached⟩
      obtain ⟨s', hs', same⟩ := before.symbols.keeps i old hold
      rw [found] at hs'
      cases hs'
      simp only [Symbol.place, Prod.mk.injEq] at same
      rw [pending, hattached] at same
      cases same.2.2.1
    rcases get?_attached hj with ⟨rfl, old, hold, rfl⟩ | ⟨hne, hj⟩
    · rw [found] at hold
      cases hold
      obtain ⟨hspace, scope, hscope⟩ := leads hname
      obtain rfl : space' = space := by
        have hkind : s.kind.space? = some space' := space?_of_spaceOf? named
        rw [hspace] at hkind
        exact (Option.some.inj hkind).symm
      exact leads_attached _ i hname hscope
    · obtain ⟨old, hold, hplace, hattached, hspace⟩ := before.attached tidy hj attached named
      have attachedThen : v.index.IsAttached j := now ▸ ⟨old, hold, hattached⟩
      exact (led.still tidy before j v' space' hj attached hname named).attached attachedThen notYet

/-! ### Signatures of events -/

/-- What stands in the signature of an event: a pending variable or named buffer, or an attached
default buffer. -/
def SignedOk (x : UnitIndex) : Prop :=
  ∀ i, x.IsEventParameter i →
    x.IsPending i ∧ (x.HasSpace i .variable ∨ x.HasSpace i .buffer) ∨
      x.IsAttached i ∧ x.HasSpace i .table

theorem isAttached_of_not_pending {x : UnitIndex} {i : SymbolId} {space : Namespace}
    (h : ¬ x.IsPending i) (has : x.HasSpace i space) : x.IsAttached i := by
  obtain ⟨s, hs, -⟩ := has
  cases hattached : s.attached with
  | true => exact ⟨s, hs, hattached⟩
  | false => exact absurd ⟨s, hs, hattached⟩ h

theorem SettledAlike.isAttached {x y : UnitIndex} {i : SymbolId} (h : SettledAlike x y)
    (attached : x.IsAttached i) : y.IsAttached i := by
  obtain ⟨s, hs, attached⟩ := attached
  obtain ⟨s', hs', same⟩ := h.keeps i s hs
  exact ⟨s', hs', (congrArg (·.1) same).trans attached⟩

theorem SignedOk.alike {x y : UnitIndex} (h : SignedOk x) (alike : SettledAlike x y)
    (spaces : ∀ {i space}, x.HasSpace i space → y.HasSpace i space) : SignedOk y := by
  intro i parameter
  rcases h i (alike.isEventParameter.1 parameter) with ⟨pending, space⟩ | ⟨attached, table⟩
  · exact .inl ⟨alike.pending.2 pending, space.imp spaces spaces⟩
  · exact .inr ⟨SettledAlike.isAttached alike attached, spaces table⟩

theorem SignedOk.effect {d : Deed} (h : SignedOk w.index) (effect : Effect env w d w')
    (proper : Proper w.index d) : SignedOk w'.index := by
  have spaces : ∀ {i space}, w.index.HasSpace i space → w'.index.HasSpace i space :=
    effect.hasSpace
  have aside : SettledAlike w.index w'.index → SignedOk w'.index :=
    fun alike => h.alike alike spaces
  -- for a parameter that has been one before it is enough that pending and attached symbols stay so
  have kept : ∀ {i}, w.index.IsEventParameter i → (w.index.IsPending i → w'.index.IsPending i) →
      (w.index.IsAttached i → w'.index.IsAttached i) →
      w'.index.IsPending i ∧ (w'.index.HasSpace i .variable ∨ w'.index.HasSpace i .buffer) ∨
        w'.index.IsAttached i ∧ w'.index.HasSpace i .table :=
    fun parameter pending attached => (h _ parameter).imp
      (fun ⟨old, space⟩ => ⟨pending old, space.imp spaces spaces⟩)
      fun ⟨old, table⟩ => ⟨attached old, spaces table⟩
  cases effect with
  | make pending named root bare =>
    intro i parameter
    refine kept ((isEventParameter_withSymbol bare).1 parameter)
      (fun old => (isPending_withSymbol pending).2 (.inl old)) ?_
    rintro ⟨s, hs, attached⟩
    exact ⟨s, Arena.get?_push_of_get? hs, attached⟩
  | @attach s symbol space found leads =>
    intro i parameter
    have old := (isEventParameter_attached space).1 parameter
    have hne : i ≠ s := by
      rintro rfl
      exact proper.free old
    refine kept old (fun pending => (isPending_attached _).2 ⟨pending, hne⟩) ?_
    rintro ⟨v, hv, attached⟩
    obtain ⟨v', hv', -, stays, -⟩ := attached_get? s symbol space hv
    exact ⟨v', hv', stays attached⟩
  | sign event s =>
    obtain ⟨isEvent, space, has, settles⟩ := proper
    have attached : ∀ {i}, w.index.IsAttached i → (w.index.withSigned event s).IsAttached i := by
      rintro i ⟨v, hv, attached⟩
      obtain ⟨v', hv', same⟩ := keeps_signed Symbol.attached_signed i v hv
      exact ⟨v', hv', same.trans attached⟩
    intro i parameter
    rcases (isEventParameter_withSigned isEvent).1 parameter with old | rfl
    · exact kept old isPending_withSigned.2 attached
    · rcases settles with ⟨unsettled, rfl | rfl⟩ | ⟨settled, rfl⟩
      · exact .inl ⟨isPending_withSigned.2 unsettled.pending, .inl (spaces has)⟩
      · exact .inl ⟨isPending_withSigned.2 unsettled.pending, .inr (spaces has)⟩
      · exact .inr ⟨attached (isAttached_of_not_pending settled has), spaces has⟩
  | enlist routine s mode =>
    exact aside (settledAlike_update (fun _ => Symbol.settlement_enlisted mode) rfl)
  | relocate routine n =>
    exact aside (settledAlike_update (f := fun s => { s with definitionNode := some n })
      (fun _ => rfl) rfl)
  | turn | announce | take | load => exact aside (settledAlike_same rfl)

theorem SignedOk.properly (h : SignedOk w.index) (properly : Properly env w ds w') :
    SignedOk w'.index := by
  induction properly with
  | calm calm => exact h.alike calm.settledAlike calm.hasSpace
  | deed before proper effect rest ih =>
    exact ih ((h.alike before.settledAlike before.hasSpace).effect effect proper)

/-! ### The whole walk -/

/-- What is known of the names after the moments in `past`. -/
structure Named (past : List Walk) (x : UnitIndex) : Prop where
  tidy : x.Tidy
  led : Led past x
  signed : SignedOk x

theorem Named.calm (h : Named past w.index) (calm : Calm l w w') : Named past w'.index where
  tidy := h.tidy.still (calm.still h.tidy)
  led := h.led.still h.tidy (calm.still h.tidy)
  signed := h.signed.alike calm.settledAlike calm.hasSpace

theorem Named.moment (h : Named past w.index) (properly : Properly env w ds w')
    (single : (attachments ds).length ≤ 1) : Named (past ++ [w]) w'.index := by
  have signed := h.signed.properly properly
  rcases properly.names h.tidy single with still | attaches
  · refine ⟨h.tidy.still still, fun i s space hs attached hname named => ?_, signed⟩
    exact (h.led.still h.tidy still i s space hs attached hname named).mono (by simp)
  · exact ⟨attaches.tidy h.tidy, Led.attaches h.led h.tidy attaches rfl, signed⟩

theorem Named.passage {ms : List Walk} (h : Named past w.index) (passage : Passage env w ms w') :
    Named (past ++ ms) w'.index := by
  induction passage generalizing past with
  | calm calm =>
    rw [List.append_nil]
    exact h.calm calm
  | moment before sound properly single rest ih =>
    rw [List.append_cons]
    exact ih ((h.calm before).moment properly single)

/-- Names are in order at every moment on the way. -/
theorem Named.tidy_of_mem {ms : List Walk} {v : Walk} (h : Named past w.index)
    (passage : Passage env w ms w') (hv : v ∈ ms) : v.index.Tidy := by
  induction passage generalizing past with
  | calm => cases hv
  | moment before sound properly single rest ih =>
    rcases List.mem_cons.1 hv with rfl | hv
    · exact (h.calm before).tidy
    · exact ih ((h.calm before).moment properly single) hv

theorem named_start (notes : Annotations) : Named [] (start env notes).index where
  tidy := by
    refine ⟨by simp [start], fun i s t hs ht => ?_, fun i s hs pending => ?_,
      fun s scope hscope e he => ?_, fun s scope hscope => ?_⟩
    · obtain ⟨-, rfl⟩ := start_arena hs
      cases ht
    · obtain ⟨-, rfl⟩ := start_arena hs
      cases pending
    · obtain ⟨-, rfl⟩ := start_arena hscope
      cases he
    · obtain ⟨-, rfl⟩ := start_arena hscope
      exact List.Pairwise.nil
  led := by
    intro i s space hs attached hname named
    obtain ⟨-, rfl⟩ := start_arena hs
    simp [spaceOf?] at named
  signed := by
    intro i parameter
    obtain ⟨s, hs⟩ := listed_start notes i parameter
    obtain ⟨e, symbol, he, mem⟩ := parameter
    obtain ⟨-, rfl⟩ := start_arena he
    simp [Symbol.signature, Symbol.asEvent?] at mem

/-- Names are in order whenever a node is entered. -/
theorem visitUnit_tidy {notes : Annotations} {n : NodeId} {v : Walk}
    (hok : visitUnit env (start env notes) = .ok () w) (he : (n, v) ∈ unitEntries env notes) :
    v.index.Tidy :=
  (named_start notes).tidy_of_mem (visitUnit_passes hok).1
    (visitUnit_entries_subset hok (List.mem_map_of_mem he))

end Walk

namespace CompilationUnit

open UnitIndex Walk

variable {catalog : Catalog} {types : TypeRegistry} {options : Options}

/-- When an analysis succeeds, the name tables mirror the symbols. Every entry leads to an attached
symbol of its scope in the namespace of its kind, and no name is entered twice. Every attached
symbol that names can lead to has an entry under its name, unless it has lost it to one that was
attached later. And what is still pending are the variables and named buffers in the signatures of
events. -/
theorem analyze_nameTables {u u' : CompilationUnit} {index : UnitIndex}
    (hok : u.analyze catalog types options = (.ok index, u')) :
    let env : Env := { tree := u.tree, catalog, types, options }
    (∀ s scope, index.scopes.get? s = some scope →
      (∀ e ∈ scope.names.entries, index.EntryOk s e) ∧ NameTable.Distinct scope.names.entries) ∧
    (∀ i s space, index.symbols.get? i = some s → s.attached = true → s.name ≠ "" →
      index.spaceOf? s = some space → index.Leads (unitMoments env u.notes) i s space) ∧
    ∀ i s, index.symbols.get? i = some s → (s.attached = false ↔ index.IsEventParameter i ∧
      ((∃ v, s.kind = .variable v) ∨ ∃ b, s.kind = .tableBuffer b ∧ b.isDefault = false)) := by
  intro env
  obtain ⟨w, hw, rfl, rfl⟩ := analyze_ok catalog types options hok
  obtain ⟨passage, settled⟩ := visitUnit_passes hw
  obtain ⟨tidy, led, signed⟩ := (named_start u.notes).passage passage
  have spaces : ∀ {i : SymbolId} {s : Symbol} {space : Namespace}, w.index.symbols.get? i = some s →
      w.index.HasSpace i space → s.kind.space? = some space := by
    rintro i s space hs ⟨s', hs', hspace⟩
    rw [hs] at hs'
    cases hs'
    exact hspace
  have kinds : ∀ {s : Symbol}, s.kind.space? = some .variable ∨ s.kind.space? = some .buffer →
      (∃ v, s.kind = .variable v) ∨ ∃ b, s.kind = .tableBuffer b ∧ b.isDefault = false := by
    intro s h
    cases hk : s.kind with
    | «variable» v => exact .inl ⟨v, rfl⟩
    | tableBuffer b =>
      exact .inr ⟨b, rfl, by cases hb : b.isDefault <;> simp_all [SymbolKind.space?]⟩
    | _ => simp [hk, SymbolKind.space?] at h
  refine ⟨fun s scope hscope => ⟨tidy.entries s scope hscope, tidy.distinct s scope hscope⟩, led,
    fun i s hs => ⟨fun pending => ?_, fun hidden => ?_⟩⟩
  · have parameter : w.index.IsEventParameter i :=
      by_contra fun free => settled i ⟨⟨s, hs, pending⟩, free⟩
    refine ⟨parameter, ?_⟩
    rcases signed i parameter with ⟨-, space⟩ | ⟨⟨s', hs', attached⟩, -⟩
    · exact kinds (space.imp (spaces hs) (spaces hs))
    · rw [hs] at hs'
      cases hs'
      rw [pending] at attached
      cases attached
  · obtain ⟨parameter, kind⟩ := hidden
    rcases signed i parameter with ⟨⟨s', hs', pending⟩, -⟩ | ⟨-, table⟩
    · rw [hs] at hs'
      cases hs'
      exact pending
    · have hspace := spaces hs table
      rcases kind with ⟨v, kind⟩ | ⟨b, kind, named⟩
      · rw [kind] at hspace
        cases hspace
      · rw [kind] at hspace
        simp [SymbolKind.space?, named] at hspace

/-- A variable that is defined again in other letters, a temp-table, and an event with a buffer of
it in its signature. -/
def redefinedSample : ParseTree := .ofRows [
  (0, .defineVariable, ""), (1, .identifier, "x"), (0, .defineVariable, ""), (3, .identifier, "X"),
  (0, .defineTempTable, ""), (5, .identifier, "tt"), (0, .defineEvent, ""), (7, .identifier, "e"),
  (7, .bufferParameter, ""), (9, .identifier, "b"), (9, .record, "tt")]

/-- In the sample, the first variable has lost its name to the second, which was attached later, and
the buffer in the signature is still pending. -/
theorem analyze_nameTables_redefined :
    ∃ index u scope, (ofTree redefinedSample).analyze {} {} {} = (.ok index, u) ∧
      index.scopes.get? rootScope = some scope ∧ scope.names.find? .variable "x" = some ⟨2⟩ ∧
      AttachedLater (unitMoments { tree := redefinedSample } (.blank redefinedSample.size))
        ⟨1⟩ ⟨2⟩ ∧
      index.IsEventParameter ⟨5⟩ := by
  obtain ⟨index, hok, hfirst, hlost, hpending⟩ :=
    exists_analyze_ok_and (u := ofTree redefinedSample) {} {} {}
      (P := fun x =>
        ((x.symbols.get? ⟨1⟩).map fun s => (s.name, s.scope, s.attached, x.spaceOf? s)) =
          some ("x", rootScope, true, some .variable) ∧
        ((x.scopes.get? rootScope).bind fun s => s.names.find? .variable "x") = some ⟨2⟩ ∧
        (x.symbols.get? ⟨5⟩).map (·.attached) = some false) (by decide +kernel)
  obtain ⟨-, led, pendings⟩ := analyze_nameTables hok
  obtain ⟨s, hs, hplace⟩ := Option.map_eq_some_iff.1 hfirst
  simp only [Prod.mk.injEq] at hplace
  obtain ⟨hname, hscope, hattached, hspace⟩ := hplace
  obtain ⟨scope, h, hget, hfind, held⟩ :=
    led ⟨1⟩ s .variable hs hattached (by simp [hname]) hspace
  rw [hscope] at hget
  rw [hname] at hfind
  rw [hget, Option.bind_some, hfind] at hlost
  cases hlost
  obtain ⟨b, hb, hdefinition⟩ := Option.map_eq_some_iff.1 hpending
  exact ⟨index, _, scope, hok, hget, hfind, held.resolve_left (by decide),
    ((pendings ⟨5⟩ b hb).1 hdefinition).1⟩

end CompilationUnit

end AblResolve
