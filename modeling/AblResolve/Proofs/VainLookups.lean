import AblResolve.Proofs.CatalogNames
import AblResolve.Proofs.Defaulting
import AblResolve.Proofs.FieldOutcomes
/-!
Fields that are looked up in vain. The lookup leaves the notes, the names and the bindings of
buffers alone. What it may leave behind is what a record of the name before the dot would have left:
if that is the name of a catalog table, the table is loaded and has its default buffer, even though
it does not have the field. From then on that buffer takes part in the lookup of bare names.
-/
namespace AblResolve

namespace UnitIndex

variable {x : UnitIndex} {e : Catalog.Entry} {t : TableId} {table : Table}

/-- The index in which a table of the catalog is there. -/
def loaded (x : UnitIndex) (e : Catalog.Entry) : UnitIndex :=
  match x.schemaTable? e with
  | some _ => x
  | none => x.loadTable e

/-- The index in which a table has its default buffer in the root scope. -/
def offering (x : UnitIndex) (t : TableId) : UnitIndex :=
  match x.unnamedBuffer? t, x.tables.get? t with
  | none, some table => x.withDefaultBuffer t table.name
  | _, _ => x

/-- The index once a table of the catalog has been found by its name: the table is there and has its
default buffer. -/
def materialized (x : UnitIndex) (e : Catalog.Entry) : UnitIndex :=
  match (x.loaded e).schemaTable? e with
  | some t => (x.loaded e).offering t
  | none => x.loaded e

theorem schemaTable?_loadTable (new : x.schemaTable? e = none) :
    (x.loadTable e).schemaTable? e = some x.tables.next := by
  have nothing : x.schemaTables.find? (·.1 = e.key) = none := Option.map_eq_none_iff.1 new
  simp [schemaTable?, loadTable, List.find?_append, nothing]

theorem materialized_defaulted (x : UnitIndex) (e : Catalog.Entry) (ns : List NodeId) :
    { x with defaulted := ns }.materialized e = { x.materialized e with defaulted := ns } := by
  have loaded : { x with defaulted := ns }.loaded e = { x.loaded e with defaulted := ns } := by
    show (match x.schemaTable? e with | some _ => _ | none => _) = _
    rw [UnitIndex.loaded]
    cases x.schemaTable? e <;> rfl
  have offering : ∀ y : UnitIndex, ∀ t,
      { y with defaulted := ns }.offering t = { y.offering t with defaulted := ns } := by
    intro y t
    show (match y.unnamedBuffer? t, y.tables.get? t with | none, some _ => _ | _, _ => _) = _
    rw [UnitIndex.offering]
    cases y.unnamedBuffer? t <;> cases y.tables.get? t <;> rfl
  unfold materialized
  rw [loaded]
  show (match (x.loaded e).schemaTable? e with | some t => _ | none => _) = _
  cases (x.loaded e).schemaTable? e with
  | some t => exact offering _ t
  | none => rfl

/-- What `y` has and `x` does not have are tables of the catalog with their default buffers: no name
leads to anything new, no field is reached and no buffer is bound. -/
structure OnlyLoads (x y : UnitIndex) : Prop where
  blocks : y.blocks = x.blocks
  bufferScopes : y.bufferScopes = x.bufferScopes
  names : ∀ o space name, y.findIn? o space name = x.findIn? o space name
  reached : ∀ s, y.asFieldBuffer? s = x.asFieldBuffer? s

theorem OnlyLoads.refl (x : UnitIndex) : x.OnlyLoads x :=
  ⟨rfl, rfl, fun _ _ _ => rfl, fun _ => rfl⟩

theorem OnlyLoads.loaded (x : UnitIndex) (e : Catalog.Entry) : x.OnlyLoads (x.loaded e) := by
  unfold UnitIndex.loaded
  cases x.schemaTable? e with
  | some t => exact .refl x
  | none => exact ⟨rfl, rfl, fun _ _ _ => rfl, fun _ => rfl⟩

theorem OnlyLoads.withDefaultBuffer (x : UnitIndex) (t : TableId) (name : String) :
    x.OnlyLoads (x.withDefaultBuffer t name) where
  blocks := rfl
  bufferScopes := rfl
  names o space name := by
    unfold findIn?
    refine Arena.bind_get?_update (i := rootScope) (a := x.scopes) (g := fun s => { s with
      unnamedBuffers := s.unnamedBuffers ++ [(t, x.symbols.next)] }) (fun _ _ => ?_) o
    rfl
  reached s := Arena.bind_get?_push rfl s

theorem OnlyLoads.offering (x : UnitIndex) (t : TableId) : x.OnlyLoads (x.offering t) := by
  unfold UnitIndex.offering
  split
  · exact .withDefaultBuffer x t _
  · exact .refl x

theorem OnlyLoads.trans {x y z : UnitIndex} (h : x.OnlyLoads y) (k : y.OnlyLoads z) :
    x.OnlyLoads z where
  blocks := k.blocks.trans h.blocks
  bufferScopes := k.bufferScopes.trans h.bufferScopes
  names o space name := (k.names o space name).trans (h.names o space name)
  reached s := (k.reached s).trans (h.reached s)

theorem OnlyLoads.materialized (x : UnitIndex) (e : Catalog.Entry) :
    x.OnlyLoads (x.materialized e) := by
  unfold UnitIndex.materialized
  split
  · exact (OnlyLoads.loaded x e).trans (.offering _ _)
  · exact .loaded x e

end UnitIndex

namespace Walk

open UnitIndex ParseTree

variable {env : Env} {n : NodeId} {w w' : Walk} {name : String}

/-- The index once a record of a name has been looked up. -/
def searched (w : Walk) (env : Env) (name : String) : UnitIndex :=
  if w.Unclaimed name then ((env.catalog.table? name).map w.index.materialized).getD w.index
  else w.index

/-! ### Looking up -/

theorem ends_schemaTable_loaded (e : Catalog.Entry) : Ends (schemaTable e) w Never fun t w' =>
    (w.index.loaded e).schemaTable? e = some t ∧ w' = { w with index := w.index.loaded e } := by
  unfold schemaTable loaded
  rw [ends_bind, ends_theIndex]
  cases htable : w.index.schemaTable? e with
  | some t => exact ⟨htable, rfl⟩
  | none =>
    dsimp only
    rw [ends_bind, ends_modifyIndex, ends_pure]
    exact ⟨schemaTable?_loadTable htable, rfl⟩

theorem ends_defaultBuffer_offering (hs : Sound w) {t : TableId} (ht : w.index.IsSchema t) :
    Ends (defaultBuffer t) w Never fun _ w' => w' = { w with index := w.index.offering t } := by
  obtain ⟨root, hroot, -⟩ := hs.coherent.root
  obtain ⟨table, htable, -⟩ := isSchema_iff.1 ht
  have same : w.index.unnamedBuffer? t = root.unnamedBuffer? t := by
    rw [unnamedBuffer?, hroot, Option.bind_some]
  unfold defaultBuffer offering
  rw [ends_bind, ends_scopeAt hroot, same, htable]
  cases root.unnamedBuffer? t with
  | some b => exact rfl
  | none =>
    dsimp only
    rw [ends_bind, ends_tableAt htable, ends_bind, ends_createSymbol_none, ends_bind,
      ends_updateScope (by exact Arena.lt_size_of_get? hroot), ends_pure]
    rfl

theorem schemaBuffer?_state (n : NodeId) (hs : Sound w) {r : Option SymbolId}
    (hok : schemaBuffer? env name w = .ok r w') : w' = { w with
      index := ((env.catalog.table? name).map w.index.materialized).getD w.index } := by
  cases schemaBuffer?_end hok with
  | unlisted unlisted =>
    rw [unlisted]
    rfl
  | offered listed loads offers =>
    obtain ⟨moves, isSchema⟩ := (ends_schemaTable env n hs _).ok loads
    obtain ⟨found, rfl⟩ := (ends_schemaTable_loaded _).ok loads
    rw [listed, (ends_defaultBuffer_offering (moves.runs.sound hs) isSchema).ok offers]
    simp only [Option.map_some, Option.getD_some, materialized, found]

theorem findBuffer?_state (n : NodeId) (hs : Sound w) {r : Option SymbolId}
    (hok : findBuffer? env name .buffer w = .ok r w') :
    w' = { w with index := w.searched env name } := by
  unfold searched
  cases findBuffer?_end hs hok with
  | named found => rw [if_neg fun unclaimed => by rw [unclaimed.1] at found; cases found]
  | table _ found => rw [if_neg fun unclaimed => by rw [unclaimed.2] at found; cases found]
  | schema unnamed noTable find =>
    rw [if_pos ⟨unnamed, noTable⟩]
    exact schemaBuffer?_state n hs find

/-- A name with a dot that leads to no field. -/
theorem lookupQualified?_none (n : NodeId) (hs : Sound w) {field : String} {binding : Bool}
    (hok : lookupQualified? env name field binding w = .ok none w') :
    w' = { w with index := w.searched env name } := by
  cases lookupQualified?_end n hs hok with
  | noBuffer find | noField find => exact findBuffer?_state n hs find

/-- A name without a dot that leads to no field. -/
theorem lookupBare?_none (env : Env) (n : NodeId) (hs : Sound w) {binding : Bool}
    (hok : lookupBare? name binding w = .ok none w') : w' = w := by
  cases lookupBare?_end env n hs hok
  rfl

/-- The index once a field has been looked up in vain, but for the note about it. -/
def sought (w : Walk) (env : Env) (n : NodeId) (h : TableHint) : UnitIndex :=
  match w.hinted? h, Text.splitLast? (env.tree.text n) with
  | none, some (table, _) => w.searched env table
  | _, _ => w.index

theorem addUnresolved_ok (hok : addUnresolved n name w = .ok () w') :
    ∃ unresolved, w' = { w with index := { w.index with unresolved } } := by
  unfold addUnresolved at hok
  obtain ⟨scope, w₁, hscope, hmodify⟩ := bind_ok.1 hok
  obtain ⟨-, rfl⟩ := currentScope_ok hscope
  cases hmodify
  exact ⟨_, rfl⟩

theorem missingField_ok {buffer : SymbolId}
    (hok : missingField env n buffer name w = .ok () w') :
    ∃ unresolved diagnostics,
      w' = { w with index := { w.index with unresolved, diagnostics } } := by
  unfold missingField at hok
  split at hok
  · obtain ⟨symbol, w₁, hsymbol, hrest⟩ := bind_ok.1 hok
    obtain ⟨-, rfl⟩ := symbolAt_ok.1 hsymbol
    obtain ⟨_, w₂, hreport, hnote⟩ := bind_ok.1 hrest
    cases hreport
    obtain ⟨unresolved, rfl⟩ := addUnresolved_ok hnote
    exact ⟨_, _, rfl⟩
  · cases hok
    exact ⟨w.index.unresolved, w.index.diagnostics, rfl⟩

/-- A field that is found is not noted as unresolved, and the table that a hint points to has it.
Otherwise nothing but notes is added to what the lookup leaves behind. -/
theorem resolveField_cases {q : Qualifier} {h : TableHint} (hs : Sound w)
    (hok : resolveField env n q h w = .ok () w') :
    w'.index.unresolved = w.index.unresolved ∧ ¬ Lacks env n w h ∨
      ∃ unresolved diagnostics,
        w' = { w with index := { w.sought env n h with unresolved, diagnostics } } := by
  cases resolveField_end hs hok with
  | hinted hint find annotates =>
    obtain ⟨moves, -⟩ := (ends_fieldOfBuffer? env n hs _).ok find
    obtain ⟨-, -, -, same⟩ := annotateField_ok annotates
    refine .inl ⟨same.trans (congrArg (·.1) moves.runs.misses), ?_⟩
    rintro ⟨b, hb, lacks⟩
    rw [hint] at hb
    cases hb
    cases fieldOfBuffer?_end env n hs find with
    | field has =>
      rw [lacks] at has
      cases has
  | lacking hint lacks misses =>
    refine .inr ?_
    rw [sought, hint]
    exact missingField_ok misses
  | found unhinted find annotates =>
    obtain ⟨moves, -⟩ := (ends_lookupField? env n hs _ _).ok find
    obtain ⟨-, -, -, same⟩ := annotateField_ok annotates
    refine .inl ⟨same.trans (congrArg (·.1) moves.runs.misses), ?_⟩
    rintro ⟨b, hb, -⟩
    rw [unhinted] at hb
    cases hb
  | @unknown v _ unhinted find notes =>
    obtain ⟨unresolved, rfl⟩ := addUnresolved_ok notes
    refine .inr ⟨unresolved, v.index.diagnostics, ?_⟩
    unfold lookupField? at find
    rw [sought, unhinted]
    cases hsplit : Text.splitLast? (env.tree.text n) with
    | some p =>
      rw [hsplit] at find
      obtain rfl := lookupQualified?_none n hs find
      rfl
    | none =>
      rw [hsplit] at find
      obtain rfl := lookupBare?_none env n hs find
      rfl

theorem onlyLoads_sought (w : Walk) (env : Env) (n : NodeId) (h : TableHint) :
    w.index.OnlyLoads (w.sought env n h) := by
  unfold sought searched
  split
  · split
    · cases env.catalog.table? _ with
      | some e => exact .materialized _ e
      | none => exact .refl _
    · exact .refl _
  · exact .refl _

/-! ### Visiting the field -/

/-- The lookup of field `n` has been in vain: it is noted as unresolved, or the table that a hint
points to does not have it and need not have it. -/
def InVain (env : Env) (n : NodeId) (w w' : Walk) : Prop :=
  w'.index.unresolved = w.index.unresolved ++ [missedField env n w] ∨
    Lacks env n w (w.hintAt n) ∧ isTolerant env n = true

/-- What a node that asks has been told is taken from it, and that may be noted; hints lead to the
same buffers. -/
theorem hinted?_told (h : TableHint) (ns : List NodeId) (qualifiers : SideTable Qualifier)
    (hints : SideTable TableHint) :
    hinted? { w.withDefaulted ns with qualifiers, hints } h = w.hinted? h := by
  cases h <;> rfl

theorem sought_told (h : TableHint) (ns : List NodeId) (qualifiers : SideTable Qualifier)
    (hints : SideTable TableHint) :
    ({ w.withDefaulted ns with qualifiers, hints }).sought env n h =
      { w.sought env n h with defaulted := ns } := by
  have unclaimed : ∀ name, Unclaimed { w.withDefaulted ns with qualifiers, hints } name ↔
      w.Unclaimed name := by
    intro name
    have same : (w.withDefaulted ns).index.resolve? w.scope .buffer name =
        w.index.resolve? w.scope .buffer name := resolve?_congr (by rfl) w.scope .buffer name
    exact and_congr_left' (Eq.congr_left same)
  unfold sought
  rw [hinted?_told]
  split
  · rename_i table _ _ _
    unfold searched
    by_cases free : w.Unclaimed table
    · rw [if_pos ((unclaimed table).2 free), if_pos free]
      cases env.catalog.table? table with
      | none => rfl
      | some e => exact materialized_defaulted w.index e ns
    · rw [if_neg (mt (unclaimed table).1 free), if_neg free]
      rfl
  · rfl

/-- A field below which there is nothing, and which does not define a variable: when its lookup is
in vain, the state is as before, but for notes, what the node has been told and what the lookup
leaves behind. -/
theorem visit_vain (hs : Sound w) (kind : env.tree.kind n = .field)
    (leaf : env.tree.children n = []) (plain : env.tree.definesInline n = false) :
    ∃ w', visit env n w = .ok () w' ∧ (InVain env n w w' →
      ∃ unresolved diagnostics defaulted, w' = { w with
        index := { w.sought env n (w.hintAt n) with unresolved, diagnostics, defaulted }
        qualifiers := w.qualifiers.erase n
        hints := w.hints.erase n }) := by
  have asks : (env.tree.kind n).consumesQualifier := by simp [kind]
  have keyword : env.tree.hasKeyword n .input = false := by
    simp [ParseTree.hasKeyword, ParseTree.childOfKind?, leaf]
  obtain ⟨plan, w', henter, rfl, -, -⟩ :=
    Ends.exists_ok (ends_enterField_resolves env n hs kind)
  have none : (Plan.plain env.tree n).steps = [] := by
    have nothing : env.tree.childList n = [] := by
      rw [ParseTree.childList]
      simp [leaf]
    simp [Plan.plain, plainSteps, nothing]
  refine ⟨w', ?_, fun vain => ?_⟩
  · rw [visit, bind_of_ok ((enter_field kind).symm ▸ henter)]
    simp only [none]
    rfl
  · unfold enterField at henter
    rw [bind_of_ok (takeQualifier_eq asks)] at henter
    obtain ⟨h, w₁, hhint, hrest⟩ := bind_ok.1 henter
    cases hhint
    rw [keyword, plain] at hrest
    obtain ⟨_, w₂, hresolve, hpure⟩ := bind_ok.1 hrest
    cases hpure
    obtain ⟨-, moves, -⟩ := (ends_takeQualifier env n).ok (takeQualifier_eq asks)
    have told : Moves env n w { w.withDefaulted (w.defaultedAt env n) with
        qualifiers := w.qualifiers.erase n, hints := w.hints.erase n } := .tail moves .takeHint
    rcases resolveField_cases (told.runs.sound hs) hresolve with ⟨same, has⟩ | ⟨_, _, rfl⟩
    · rcases vain with noted | ⟨⟨b, hb, lacks⟩, -⟩
      · rw [same] at noted
        have := congrArg List.length noted
        simp [withDefaulted] at this
      · exact absurd ⟨b, (hinted?_told _ _ _ _).trans hb, lacks⟩ has
    · rw [sought_told]
      exact ⟨_, _, _, rfl⟩

end Walk

namespace CompilationUnit

open Walk UnitIndex

/-- A field below which there is nothing, and which does not define a variable, can always be
visited. If its lookup is in vain, the notes are as before, and so is all of the index but for the
lists of unresolved names, findings and defaults. The one exception is a name with a table before
the dot that is looked up in the catalog: then the table is loaded and offered through its default
buffer, as if a record had been looked up by that name. -/
theorem analyze_vain (catalog : Catalog) (types : TypeRegistry) (options : Options)
    (u : CompilationUnit) :
    let env : Env := { tree := u.tree, catalog, types, options }
    ∀ n v, (n, v) ∈ unitEntries env u.notes → u.tree.kind n = .field → u.tree.children n = [] →
      u.tree.definesInline n = false →
      ∃ v', visit env n v = .ok () v' ∧ (InVain env n v v' →
        v'.notes = v.notes ∧ v.index.OnlyLoads v'.index ∧
        ∃ unresolved diagnostics defaulted, v' = { v with
          index := { v.sought env n (v.hintAt n) with unresolved, diagnostics, defaulted }
          qualifiers := v.qualifiers.erase n
          hints := v.hints.erase n }) := by
  intro env n v he kind leaf plain
  obtain ⟨v', hok, state⟩ : ∃ v', visit env n v = .ok () v' ∧ (InVain env n v v' → _) :=
    visit_vain (sound_of_mem_unitEntries he) kind leaf plain
  refine ⟨v', hok, fun vain => ?_⟩
  obtain ⟨unresolved, diagnostics, defaulted, rfl⟩ := state vain
  have loads := onlyLoads_sought v env n (v.hintAt n)
  exact ⟨rfl, ⟨loads.blocks, loads.bufferScopes, loads.names, loads.reached⟩, _, _, _, rfl⟩

/-- A field that a catalog table does not have, and the bare name of one that it has. -/
def vainSample : ParseTree := .ofRows [
  (0, .displayStatement, ""), (1, .field, "SalesRep.Quota"), (0, .displayStatement, ""),
  (3, .field, "RepName")]

/-- The visit notes the node as unresolved and adds a table. -/
def addsTable (env : Env) (n : NodeId) (w : Walk) : Bool :=
  match visit env n w with
  | .ok _ v => v.index.unresolved = w.index.unresolved ++ [missedField env n w] &&
      v.index.tables.size = w.index.tables.size + 1
  | .error _ _ => false

/-- The first field of the sample is looked up in vain, and then there is a table more. -/
theorem vainSample_entry :
    let env : Env :=
      { tree := vainSample, catalog := ⟨[⟨"sports", [Catalog.Sample.salesRep]⟩]⟩ }
    ∃ v v', ((⟨2⟩, v) : NodeId × Walk) ∈ unitEntries env (.blank vainSample.size) ∧
      visit env ⟨2⟩ v = .ok () v' ∧ InVain env ⟨2⟩ v v' ∧
      v'.index.tables.size = v.index.tables.size + 1 := by
  intro env
  have vain : (unitEntries env (.blank vainSample.size)).any fun e => e.1 = ⟨2⟩ &&
      addsTable env ⟨2⟩ e.2 := by
    decide +kernel
  obtain ⟨⟨n, v⟩, he, hv⟩ := List.any_eq_true.1 vain
  obtain ⟨hn, hv⟩ := (Bool.and_eq_true _ _).mp hv
  cases of_decide_eq_true hn
  cases hok : visit env ⟨2⟩ v with
  | error f v' => simp only [addsTable, hok, Bool.false_eq_true] at hv
  | ok _ v' =>
    simp only [addsTable, hok, Bool.and_eq_true, decide_eq_true_eq] at hv
    exact ⟨v, v', he, hok, .inl hv.1, hv.2⟩

/-- In the sample, the first field leaves the notes alone and adds no name, no binding and no field
that is reached. -/
theorem analyze_vain_quota :
    let env : Env :=
      { tree := vainSample, catalog := ⟨[⟨"sports", [Catalog.Sample.salesRep]⟩]⟩ }
    ∃ v v', ((⟨2⟩, v) : NodeId × Walk) ∈ unitEntries env (.blank vainSample.size) ∧
      visit env ⟨2⟩ v = .ok () v' ∧ InVain env ⟨2⟩ v v' ∧ v'.notes = v.notes ∧
      v.index.OnlyLoads v'.index := by
  intro env
  obtain ⟨v, v', he, hok, vain, -⟩ := vainSample_entry
  obtain ⟨v'', hok', state⟩ := analyze_vain env.catalog {} {} (.ofTree vainSample) ⟨2⟩ v he
    (by decide) (by decide) (by decide)
  obtain rfl : v'' = v' := by
    have same := hok'.symm.trans hok
    cases same
    rfl
  obtain ⟨notes, loads, -⟩ := state vain
  exact ⟨v, v'', he, hok, vain, notes, loads⟩

/-- A lookup in vain may leave a trace: a table is there afterwards that was not there before, and
for want of it the bare name would stand for nothing. -/
theorem vain_lookup_leaves_trace :
    let catalog : Catalog := ⟨[⟨"sports", [Catalog.Sample.salesRep]⟩]⟩
    let env : Env := { tree := vainSample, catalog }
    let alone : ParseTree := .ofRows [(0, .displayStatement, ""), (1, .field, "RepName")]
    (∃ v v', ((⟨2⟩, v) : NodeId × Walk) ∈ unitEntries env (.blank vainSample.size) ∧
      visit env ⟨2⟩ v = .ok () v' ∧ InVain env ⟨2⟩ v v' ∧
      v'.index.tables.size ≠ v.index.tables.size) ∧
    (∃ index u, (ofTree vainSample).analyze catalog {} {} = (.ok index, u) ∧
      index.unresolved.map (·.node) = [⟨2⟩] ∧ (u.notes.get ⟨4⟩).symbol.isSome) ∧
    ∃ index u, (ofTree alone).analyze catalog {} {} = (.ok index, u) ∧
      index.unresolved.map (·.node) = [⟨2⟩] ∧ (u.notes.get ⟨2⟩).symbol = none := by
  intro catalog env alone
  obtain ⟨v, v', he, hok, vain, more⟩ := vainSample_entry
  obtain ⟨index, hfirst, unresolved⟩ := exists_analyze_ok_and (u := ofTree vainSample) catalog {} {}
    (P := fun x => x.unresolved.map (·.node) = [⟨2⟩]) (by decide +kernel)
  obtain ⟨index', halone, unresolved'⟩ := exists_analyze_ok_and (u := ofTree alone) catalog {} {}
    (P := fun x => x.unresolved.map (·.node) = [⟨2⟩]) (by decide +kernel)
  exact ⟨⟨v, v', he, hok, vain, by omega⟩, ⟨index, _, hfirst, unresolved, by decide +kernel⟩,
    ⟨index', _, halone, unresolved', by decide +kernel⟩⟩

end CompilationUnit

end AblResolve
