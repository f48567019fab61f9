import AblResolve.Proofs.Calmness
import AblResolve.Proofs.TableDefinition
/-!
What the operations of a walk do: symbols are made and attached, parameters join lists, and tables
of the catalog are loaded when a name first leads to them. Besides that, looking names up and
defining tables is calm.
-/
namespace AblResolve.Walk

open UnitIndex

variable {α β : Type} {env : Env} {l : Licence} {w w' : Walk}

/-- If the computation gives a result, its deeds are such. -/
def Logs (env : Env) (l : Licence) (m : WalkM α) (P : α → List Deed → Prop) : Prop :=
  ∀ w a w', m w = .ok a w' → ∃ ds, Log env l w ds w' ∧ P a ds

namespace Logs

variable {P : α → List Deed → Prop} {m : WalkM β} {f : β → WalkM α}

theorem calm {m : WalkM α} (h : Calmly l m) (none : ∀ a, P a []) : Logs env l m P :=
  fun w a w' hok => ⟨[], .calm (h w a w' hok), none a⟩

theorem pure {a : α} (none : P a []) : Logs env l (pure a) P := by
  intro w a' w' hok
  cases hok
  exact ⟨[], .calm (.refl l w), none⟩

theorem throw (f : Fault) : Logs env l (throw f : WalkM α) P := fun _ _ _ h => nomatch h

theorem seq {U : β → List Deed → Prop} (h : Logs env l m U)
    (k : ∀ b ds, U b ds → Logs env l (f b) fun a es => P a (ds ++ es)) :
    Logs env l (m >>= f) P := by
  intro w a w' hok
  obtain ⟨b, w₁, hm, hf⟩ := bind_ok.1 hok
  obtain ⟨ds, log, hds⟩ := h w b w₁ hm
  obtain ⟨es, log', hes⟩ := k b ds hds w₁ a w' hf
  exact ⟨ds ++ es, log.append log', hes⟩

/-- What goes before is calm. -/
theorem bind (h : Calmly l m) (k : ∀ b, Logs env l (f b) P) : Logs env l (m >>= f) P :=
  (Logs.calm (P := fun _ ds => ds = []) h fun _ => rfl).seq fun b ds hds => by
    subst hds
    exact k b

/-- What comes after is calm. -/
theorem close {U : β → List Deed → Prop} (h : Logs env l m U) (k : ∀ b, Calmly l (f b))
    (same : ∀ b ds a, U b ds → P a ds) : Logs env l (m >>= f) P :=
  h.seq fun b ds hds => .calm (k b) fun a => by
    rw [List.append_nil]
    exact same b ds a hds

theorem mono {U : α → List Deed → Prop} {m : WalkM α} (h : Logs env l m U)
    (imp : ∀ a ds, U a ds → P a ds) : Logs env l m P := by
  intro w a w' hok
  obtain ⟨ds, log, hds⟩ := h w a w' hok
  exact ⟨ds, log, imp a ds hds⟩

end Logs

/-! ### Symbols -/

theorem createSymbol_ok {scope : ScopeId} {n : Option NodeId} {name : String} {kind : SymbolKind}
    {attached : Bool} {s : SymbolId} (hok : createSymbol scope n name kind attached w = .ok s w') :
    s = w.index.symbols.next ∧ w' = { w with
      index := w.index.withSymbol { name, scope, definitionNode := n, attached, kind }
      notes := n.elim w.notes fun n =>
        w.notes.update n fun a => { a with symbol := some w.index.symbols.next } } := by
  cases n <;> cases hok <;> exact ⟨rfl, rfl⟩

/-- A kind of symbol that names lead to in a namespace, whatever the tables are, and that begins
without parameters. -/
structure Makes (kind : SymbolKind) (space : Namespace) : Prop where
  named : ∀ (x : UnitIndex) (s : Symbol), s.kind = kind → x.spaceOf? s = some space
  apart : space ≠ .table
  bare : ∀ s : Symbol, s.kind = kind → s.parameterList = []

theorem makes_variable (v : Variable) : Makes (.variable v) .variable :=
  ⟨fun x s h => by simp [spaceOf?, h, SymbolKind.space?], nofun,
    fun s h => by simp [Symbol.parameterList, h]⟩

theorem makes_event : Makes (.event []) .event :=
  ⟨fun x s h => by simp [spaceOf?, h, SymbolKind.space?], nofun,
    fun s h => by simp [Symbol.parameterList, h]⟩

theorem makes_browse (b : Browse) : Makes (.browse b) (.widget .browse) :=
  ⟨fun x s h => by simp [spaceOf?, h, SymbolKind.space?], nofun,
    fun s h => by simp [Symbol.parameterList, h]⟩

theorem makes_widget (kind : WidgetKind) : Makes (.widget kind) (.widget kind) :=
  ⟨fun x s h => by simp [spaceOf?, h, SymbolKind.space?], nofun,
    fun s h => by simp [Symbol.parameterList, h]⟩

theorem makes_routine {r : Routine} (kind : r.kind ≠ .program) (bare : r.parameters = []) :
    Makes (.routine r) .routine :=
  ⟨fun x s h => by simp [spaceOf?, h, kind], nofun,
    fun s h => by simp [Symbol.parameterList, h, bare]⟩

theorem makes_buffer (t : TableId) :
    Makes (.tableBuffer { table := t, isDefault := false }) .buffer :=
  ⟨fun x s h => by simp [spaceOf?, h], nofun, fun s h => by simp [Symbol.parameterList, h]⟩

section Symbols

variable {kind : SymbolKind} {space : Namespace} (makes : Makes kind space) {n : NodeId}
  (licensed : l.nodes n)
include makes licensed

theorem logs_createSymbol (scope : ScopeId) (name : String) :
    Logs env l (createSymbol scope (some n) name kind false) fun s ds =>
      ds = [.make s space] := by
  intro w s w' hok
  obtain ⟨rfl, rfl⟩ := createSymbol_ok hok
  let s : Symbol := { name, scope, definitionNode := some n, kind }
  refine ⟨_, .deed (.refl l w) (.make rfl (makes.named w.index s rfl) (absurd · makes.apart)
    (makes.bare s rfl)) (.calm ?_), rfl⟩
  exact .annotate licensed

theorem logs_define (name : String) :
    Logs env l (define n name kind) fun s ds => ds = [.make s space] :=
  .bind .currentScope fun scope => (logs_createSymbol makes licensed scope name).seq
    fun s ds hds => .bind (.beginDefinition s) fun _ => .pure (by simpa using hds)

end Symbols

theorem namespaceOf_ok {kind : SymbolKind} {space : Namespace}
    (hok : namespaceOf kind w = .ok space w') : kind.space? = some space ∧ w = w' := by
  cases kind <;> cases hok <;> exact ⟨rfl, rfl⟩

theorem attach_ok {i : SymbolId} (hok : attach i w = .ok () w') :
    ∃ s space, w.index.symbols.get? i = some s ∧
      (s.name ≠ "" → s.kind.space? = some space ∧
        ∃ scope, w.index.scopes.get? s.scope = some scope) ∧
      w' = { w with index := w.index.attached i s space } := by
  unfold attach at hok
  obtain ⟨s, w₁, hs, hrest⟩ := bind_ok.1 hok
  obtain ⟨found, rfl⟩ := symbolAt_ok.1 hs
  obtain ⟨_, w₂, hupdate, hname⟩ := bind_ok.1 hrest
  obtain rfl := updateSymbol_ok hupdate
  split at hname
  · rename_i hne
    obtain ⟨space, w₃, hspace, hscope⟩ := bind_ok.1 hname
    obtain ⟨leads, rfl⟩ := namespaceOf_ok hspace
    obtain ⟨scope, rfl⟩ := updateScope_ok hscope
    exact ⟨s, space, found, fun _ => ⟨leads, scope⟩, by simp [attached, bne_iff_ne.1 hne]⟩
  · rename_i hne
    have hempty : s.name = "" := by simpa using hne
    cases hname
    exact ⟨s, .variable, found, absurd hempty, by simp [attached, hempty]⟩

theorem logs_attach (s : SymbolId) : Logs env l (attach s) fun _ ds => ds = [.attach s] := by
  intro w _ w' hok
  obtain ⟨symbol, space, found, leads, rfl⟩ := attach_ok hok
  exact ⟨_, (Effect.attach found leads).log, rfl⟩

theorem logs_createRoutine {r : Routine} (kind : r.kind ≠ .program) (bare : r.parameters = [])
    (scope : ScopeId) {n : NodeId} (licensed : l.nodes n) (name : String) :
    Logs env l (createRoutine scope n name r) fun s ds =>
      ds = [.make s .routine, .attach s] :=
  (logs_createSymbol (makes_routine kind bare) licensed scope name).seq fun s ds hds => by
    subst hds
    refine .bind (.updateScope _ fun _ => rfl) fun _ => (logs_attach s).seq fun _ es hes => ?_
    exact .pure (by simp [hes])

/-! ### Parameters -/

theorem currentScope_ok {s : ScopeId} (hok : currentScope w = .ok s w') : s = w.scope ∧ w = w' := by
  unfold currentScope at hok
  obtain ⟨v, w₁, hget, hrest⟩ := bind_ok.1 hok
  cases hget
  cases hstack : w.scopeStack <;> rw [hstack] at hrest <;> cases hrest
  exact ⟨by simp [Walk.scope, Frame.scope, frame, hstack], rfl⟩

theorem currentRoutine_ok {r : SymbolId} (hok : currentRoutine w = .ok r w') :
    w.index.enclosingRoutine? w.scope = some r ∧ w = w' := by
  unfold currentRoutine at hok
  obtain ⟨x, w₁, hx, hrest⟩ := bind_ok.1 hok
  cases hx
  obtain ⟨s, w₂, hs, hfound⟩ := bind_ok.1 hrest
  obtain ⟨rfl, rfl⟩ := currentScope_ok hs
  cases henclosing : w.index.enclosingRoutine? w.scope <;> rw [henclosing] at hfound <;>
    cases hfound
  exact ⟨rfl, rfl⟩

/-- The routine around a scope depends on the fixed parts of the scopes alone. -/
theorem enclosingRoutine?_congr {x y : UnitIndex}
    (h : ∀ s, (y.scopes.get? s).map Scope.fixed = (x.scopes.get? s).map Scope.fixed) (s : ScopeId) :
    y.enclosingRoutine? s = x.enclosingRoutine? s := by
  have parent : ∀ s, y.parentScope? s = x.parentScope? s := fun s => by
    have same := congrArg (Option.bind · (·.1)) (h s)
    simpa only [Option.bind_map, Function.comp_def, Scope.fixed, parentScope?] using same
  have routine : ∀ s, (y.scopes.get? s).bind (·.routine) = (x.scopes.get? s).bind (·.routine) :=
    fun s => by
      have same := congrArg (Option.bind · (·.2.2.2.1)) (h s)
      simpa only [Option.bind_map, Function.comp_def, Scope.fixed] using same
  have chain : ∀ s, y.scopeChain s = x.scopeChain s := by
    rintro ⟨n⟩
    induction n using Nat.strongRecOn with
    | ind n ih =>
      rw [scopeChain, scopeChain, parent]
      cases x.parentScope? ⟨n⟩ with
      | none => rfl
      | some p =>
        dsimp only
        split
        · rw [ih p.val ‹_›]
        · rfl
  unfold enclosingRoutine?
  rw [chain]
  simp only [routine]

theorem enclosingRoutine?_withSymbol (x : UnitIndex) (symbol : Symbol) (s : ScopeId) :
    (x.withSymbol symbol).enclosingRoutine? s = x.enclosingRoutine? s :=
  enclosingRoutine?_congr (x := x) (y := x.withSymbol symbol) (fun _ => rfl) s

theorem enclosingRoutine?_attached (x : UnitIndex) (i : SymbolId) (symbol : Symbol)
    (space : Namespace) (s : ScopeId) :
    (x.attached i symbol space).enclosingRoutine? s = x.enclosingRoutine? s := by
  refine enclosingRoutine?_congr (fun s => ?_) s
  unfold attached
  dsimp only
  split
  · rfl
  · rw [Arena.get?_update]
    split
    · rw [Option.map_map]
      rfl
    · rfl

/-- Parameter `s` joins the signature of the event that is being read, or else the list of the
routine around, after it has been attached if that is asked for. -/
inductive Joins (w : Walk) (s : SymbolId) (mode : ParameterMode) (attaching : Bool) :
    List Deed → Prop
  | event {event : SymbolId} (reading : w.openEvent = some event) :
      Joins w s mode attaching [.sign event s]
  | routine {routine : SymbolId} (free : w.openEvent = none)
      (around : w.index.enclosingRoutine? w.scope = some routine) :
      Joins w s mode attaching
        ((if attaching then [.attach s] else []) ++ [.enlist routine s mode])

theorem updateRoutine_enlisted {routine s : SymbolId} {mode : ParameterMode}
    (hok : updateRoutine routine (fun r => { r with parameters := r.parameters ++ [(s, mode)] }) w =
      .ok () w') : Effect env w (.enlist routine s mode) w' := by
  rw [updateSymbol_ok hok]
  exact .enlist routine s mode

theorem addParameter_log (env : Env) {s : SymbolId} {mode : ParameterMode} {attaching : Bool}
    (hok : addParameter s mode attaching w = .ok () w') :
    ∃ ds, Log env l w ds w' ∧ Joins w s mode attaching ds := by
  unfold addParameter at hok
  obtain ⟨v, w₁, hget, hrest⟩ := bind_ok.1 hok
  cases hget
  cases hevent : w.openEvent with
  | some event =>
    rw [hevent] at hrest
    rw [updateSymbol_ok hrest]
    exact ⟨_, (Effect.sign event s).log, .event hevent⟩
  | none =>
    rw [hevent] at hrest
    cases attaching with
    | true =>
      obtain ⟨_, w₂, hattach, hroutine⟩ := bind_ok.1 hrest
      obtain ⟨symbol, space, found, leads, rfl⟩ := attach_ok hattach
      obtain ⟨routine, w₃, hcurrent, hupdate⟩ := bind_ok.1 hroutine
      obtain ⟨around, rfl⟩ := currentRoutine_ok hcurrent
      have around : w.index.enclosingRoutine? w.scope = some routine :=
        (enclosingRoutine?_attached _ _ _ _ _).symm.trans around
      exact ⟨_, (Effect.attach found leads).log.append (updateRoutine_enlisted hupdate).log,
        .routine hevent around⟩
    | false =>
      obtain ⟨routine, w₂, hcurrent, hupdate⟩ := bind_ok.1 hrest
      obtain ⟨around, rfl⟩ := currentRoutine_ok hcurrent
      exact ⟨_, (updateRoutine_enlisted hupdate).log, .routine hevent around⟩

/-! ### Looking names up -/

/-- At most one table is loaded, and nothing else is done. -/
inductive Loading : List Deed → Prop
  | nothing : Loading []
  | load (e : Catalog.Entry) : Loading [.load e]

/-- A field is reached through a buffer: the symbol for it may be new. -/
theorem Calmly.fieldBuffer (buffer : SymbolId) (f : FieldId) : Calmly l (fieldBuffer buffer f) := by
  intro w s w' hok
  unfold Walk.fieldBuffer at hok
  obtain ⟨owner, w₁, howner, hrest⟩ := bind_ok.1 hok
  obtain ⟨found, rfl⟩ := symbolAt_ok.1 howner
  cases hb : owner.asTableBuffer? with
  | none =>
    rw [hb] at hrest
    cases hrest
  | some b =>
    rw [hb] at hrest
    dsimp only at hrest
    cases hf : b.field? f with
    | some reached =>
      rw [hf] at hrest
      cases hrest
      exact .refl l _
    | none =>
      rw [hf] at hrest
      obtain ⟨field, w₂, hfield, hcreate⟩ := bind_ok.1 hrest
      obtain ⟨-, rfl⟩ := fieldAt_ok.1 hfield
      obtain ⟨s', w₃, hnew, hupdates⟩ := bind_ok.1 hcreate
      obtain ⟨rfl, rfl⟩ := createSymbol_ok hnew
      obtain ⟨_, w₄, hupdate, hpure⟩ := bind_ok.1 hupdates
      obtain rfl := updateSymbol_ok hupdate
      cases hpure
      have made : Calm l w { w with index := w.index.withSymbol {
          name := field.name, scope := owner.scope, definitionNode := none, attached := true,
          kind := .fieldBuffer ⟨buffer, f⟩ } } :=
        { Calm.refl l w with symbols := Arena.grows_push (.field rfl rfl) }
      refine made.trans (.updateSymbol fun v hv => ?_)
      have hkind : owner.kind = .tableBuffer b := by
        unfold Symbol.asTableBuffer? at hb
        split at hb <;> simp_all
      rw [withSymbol, Arena.get?_push_of_get? found] at hv
      cases hv
      simp [Symbol.core, SymbolKind.core, Symbol.asRoutine?, hkind]

/-- The default buffer of a table that is listed. -/
theorem defaultBuffer_calm {t : TableId} {b : SymbolId} {key : String}
    (listed : (key, t) ∈ w.index.schemaTables) (hok : defaultBuffer t w = .ok b w') :
    Calm l w w' := by
  unfold defaultBuffer at hok
  obtain ⟨root, w₁, hroot, hrest⟩ := bind_ok.1 hok
  obtain ⟨-, rfl⟩ := scopeAt_ok.1 hroot
  cases hb : root.unnamedBuffer? t with
  | some buffer =>
    rw [hb] at hrest
    cases hrest
    exact .refl l _
  | none =>
    rw [hb] at hrest
    obtain ⟨table, w₂, htable, hcreate⟩ := bind_ok.1 hrest
    obtain ⟨-, rfl⟩ := tableAt_ok.1 htable
    obtain ⟨b', w₃, hnew, hscope⟩ := bind_ok.1 hcreate
    obtain ⟨rfl, rfl⟩ := createSymbol_ok hnew
    obtain ⟨_, w₄, hupdate, hpure⟩ := bind_ok.1 hscope
    obtain ⟨-, rfl⟩ := updateScope_ok hupdate
    cases hpure
    have made : Calm l w { w with index := w.index.withSymbol {
        name := table.name, scope := rootScope, definitionNode := none, attached := true,
        kind := .tableBuffer { table := t, isDefault := true } } } :=
      { Calm.refl l w with symbols := Arena.grows_push (.default rfl rfl rfl listed) }
    exact made.trans (.updateScope fun _ => rfl)

/-- The table of an entry of the catalog is listed from now on. -/
theorem schemaTable_log {e : Catalog.Entry} {t : TableId} {name : String}
    (found : env.catalog.table? name = some e) (hok : schemaTable e w = .ok t w') :
    ∃ ds, Log env l w ds w' ∧ Loading ds ∧ (e.key, t) ∈ w'.index.schemaTables := by
  unfold schemaTable at hok
  obtain ⟨x, w₁, hx, hrest⟩ := bind_ok.1 hok
  cases hx
  cases ht : w.index.schemaTable? e with
  | some t' =>
    rw [ht] at hrest
    cases hrest
    obtain ⟨p, hp, rfl⟩ := Option.map_eq_some_iff.1 ht
    have key : p.1 = e.key := by simpa using List.find?_some hp
    exact ⟨[], .calm (.refl l w), .nothing, key ▸ List.mem_of_find?_eq_some hp⟩
  | none =>
    rw [ht] at hrest
    cases hrest
    refine ⟨_, (Effect.load name found ht).log, .load e, ?_⟩
    exact List.mem_append_right _ (List.mem_singleton_self _)

theorem logs_schemaBuffer? (name : String) :
    Logs env l (schemaBuffer? env name) fun _ => Loading := by
  intro w b w' hok
  unfold schemaBuffer? at hok
  cases he : env.catalog.table? name with
  | none =>
    rw [he] at hok
    cases hok
    exact ⟨[], .calm (.refl l w), .nothing⟩
  | some e =>
    rw [he] at hok
    obtain ⟨t, w₁, ht, hrest⟩ := bind_ok.1 hok
    obtain ⟨b', w₂, hb, hpure⟩ := bind_ok.1 hrest
    cases hpure
    obtain ⟨ds, log, loading, listed⟩ := schemaTable_log he ht
    refine ⟨ds ++ [], log.append (.calm (defaultBuffer_calm listed hb)), ?_⟩
    rwa [List.append_nil]

theorem Calmly.namedBuffer? (name : String) : Calmly l (namedBuffer? name) :=
  .bind .theIndex fun _ => .bind .currentScope fun _ => .pure _

theorem Calmly.tempTableBuffer? (name : String) : Calmly l (tempTableBuffer? name) :=
  .bind .theIndex fun _ => .pure _

theorem logs_findBuffer? (name : String) (lookup : RecordLookup) :
    Logs env l (findBuffer? env name lookup) fun _ => Loading := by
  cases lookup with
  | buffer =>
    refine .bind (.namedBuffer? name) fun found => ?_
    cases found with
    | some buffer => exact .pure .nothing
    | none =>
      refine .bind (.tempTableBuffer? name) fun found => ?_
      cases found with
      | some buffer => exact .pure .nothing
      | none => exact logs_schemaBuffer? name
  | tempTable => exact .calm (.tempTableBuffer? name) fun _ => .nothing
  | schemaTable => exact logs_schemaBuffer? name

theorem Calmly.fieldOfBuffer? (buffer : SymbolId) (name : String) :
    Calmly l (fieldOfBuffer? buffer name) := by
  refine .bind .theIndex fun x => ?_
  cases x.bufferField? buffer (Text.lastSegment name) with
  | some found => exact .bind (.fieldBuffer buffer found.item) fun _ => .pure _
  | none => exact .pure none

/-- The buffer is bound if that is asked for; either way it goes on. -/
theorem Calmly.bindIf (binding : Bool) (buffer : SymbolId) {k : Option BufferScopeId → WalkM α}
    (h : ∀ id, Calmly l (k id)) :
    Calmly l (if binding then some <$> Walk.bindReference buffer >>= k else Pure.pure none >>= k) :=
  .ite (.bind (.map some (.bindReference buffer)) h) (.bind (.pure none) h)

theorem logs_lookupQualified? (buffer field : String) (binding : Bool) :
    Logs env l (lookupQualified? env buffer field binding) fun _ => Loading := by
  refine (logs_findBuffer? buffer .buffer).close (fun found => ?_) fun _ _ _ => id
  cases found with
  | none => exact .pure none
  | some b =>
    refine .bind .theIndex fun x => ?_
    cases x.bufferField? b field with
    | none => exact .pure none
    | some found =>
      refine .bindIf binding b fun bufferScope => ?_
      exact .bind (.fieldBuffer b found.item) fun _ => .bind .theIndex fun _ => .pure _

theorem Calmly.lookupBare? (name : String) (binding : Bool) :
    Calmly l (lookupBare? name binding) := by
  refine .bind .theIndex fun x => .bind .currentScope fun scope => ?_
  cases plainSymbol? x scope name with
  | some s => exact .pure _
  | none =>
    refine .bind .currentBlock fun block => ?_
    cases boundField? x block name with
    | some found => exact .bind (.fieldBuffer found.1 found.2.1.item) fun _ => .pure _
    | none =>
      dsimp only
      cases visibleField? x scope name with
      | some found =>
        exact .bindIf binding found.1 fun _ =>
          .bind (.fieldBuffer found.1 found.2.item) fun _ => .pure _
      | none => exact .pure none

theorem logs_lookupField? (name : String) (binding : Bool) :
    Logs env l (lookupField? env name binding) fun _ => Loading := by
  unfold lookupField?
  cases Text.splitLast? name with
  | none => exact .calm (.lookupBare? name binding) fun _ => .nothing
  | some p => exact logs_lookupQualified? p.1 p.2 binding

/-! ### Tables -/

namespace Calmly

theorem openTable : Calmly l openTable := by
  refine .get fun w => ?_
  cases w.tableDefinition with
  | some d => exact .pure d
  | none => exact .misplaced _

theorem updateOpenTable (f : TableDefinition → TableDefinition) : Calmly l (updateOpenTable f) :=
  .bind .openTable fun _ => .reframe fun _ => ⟨rfl, rfl, rfl, rfl⟩

theorem takeOpenTable : Calmly l takeOpenTable := by
  refine .get fun w => ?_
  cases w.tableDefinition with
  | some d => exact .bind (.reframe fun _ => ⟨rfl, rfl, rfl, rfl⟩) fun _ => .pure d
  | none => exact .breach _

section Tables

variable (licensed : l.tables)
include licensed

theorem appendFields (t : TableId) (fields : List FieldId) : Calmly l (appendFields t fields) :=
  .bind (.tableAt t) fun _ => .after (.breach _) fun _ => .updateTable licensed t fun _ => rfl

theorem appendIndex (index : TableIndex) : Calmly l (appendIndex index) :=
  .bind (.tableAt _) fun _ => .after (.breach _) fun _ => .bind .theIndex fun _ =>
    .bind (.modifyIndex fun w => { Calm.refl l w with indexes := absurd licensed }) fun _ =>
      .bind (.updateTable licensed _ fun _ => rfl) fun _ => .pure _

theorem copyFields (source : TableId) : Calmly l (copyFields source) := by
  refine .bind (.updateOpenTable _) fun _ => .bind .openTable fun _ => ?_
  refine .bind (.tableAt source) fun _ => .bind (.mapM fun f => .fieldAt f) fun _ => ?_
  exact .bind .theIndex fun _ =>
    .bind (.modifyIndex fun w => { Calm.refl l w with fields := absurd licensed }) fun _ =>
      .appendFields licensed _ _

theorem joinField (f : FieldId) (s : SymbolId) : Calmly l (joinField f s) :=
  .bind (.endDefinition s) fun _ => .bind .openTable fun _ =>
    .bind (.updateField licensed f _) fun _ => .appendFields licensed _ _

theorem addIndex (env : Env) (n : NodeId) : Calmly l (addIndex env n) :=
  .bind .openTable fun _ => .bind (.appendIndex licensed _) fun _ => .updateOpenTable _

omit licensed in
theorem correspondingFields (t : TableId) (index : TableIndex) (location : Location)
    (fields : List FieldId) : Calmly l (correspondingFields t index location fields) := by
  induction fields with
  | nil => exact .pure []
  | cons f fields ih =>
    refine .bind (.fieldAt f) fun field => .bind .theIndex fun x => ?_
    cases x.fieldNamed? t field.name with
    | some found => exact .bind ih fun _ => .pure _
    | none => exact .bind (.report _) fun _ => ih

theorem copyIndex (env : Env) (source : IndexId) (t : TableId) :
    Calmly l (copyIndex env source t) := by
  refine .bind (.indexAt source) fun index => .bind (.tableAt t) fun table => ?_
  cases table.definitionNode with
  | none => exact .breach _
  | some n =>
    exact .bind (.correspondingFields _ _ _ _) fun _ => .bind (.appendIndex licensed _) fun _ =>
      .pure _

theorem inheritIndexes (env : Env) (d : TableDefinition) : Calmly l (inheritIndexes env d) := by
  unfold Walk.inheritIndexes
  cases d.like with
  | none => exact .forM fun _ => .bind (.tableAt _) fun _ => .report _
  | some source =>
    refine .ite (.forM fun p => .bind .theIndex fun x => ?_) (.when ?_)
    · cases x.indexNamed? source p.1 with
      | some index => exact .copyIndex licensed env index d.table
      | none => exact .bind (.tableAt source) fun _ => .report _
    · exact .bind (.tableAt source) fun _ =>
        .forM fun index => .copyIndex licensed env index d.table

theorem finishTable (env : Env) (d : TableDefinition) : Calmly l (finishTable env d) := by
  refine .bind (.inheritIndexes licensed env d) fun _ => .bind (.forM fun p => ?_) fun _ =>
    .updateTable licensed _ fun _ => rfl
  refine .bind .theIndex fun x => ?_
  cases x.fieldNamed? d.table p.name with
  | some found => exact .updateTableIndex licensed _ _
  | none => exact .bind (.indexAt _) fun _ => .report _

end Tables

end Calmly

/-- The default buffer of a new table is attached at once. -/
theorem beginTable_ok {n : NodeId} {name : String} {kind : TableKind} {s : SymbolId}
    (hok : beginTable n name kind w = .ok s w') :
    w.tableDefinition = none ∧ s = w.index.symbols.next ∧ ∃ symbol space,
      (w.index.withTable kind n name).symbols.get? s = some symbol ∧
      (symbol.name ≠ "" → symbol.kind.space? = some space ∧
        ∃ scope, w.index.scopes.get? symbol.scope = some scope) ∧
      w' = { w with
        index := (w.index.withTable kind n name).attached s symbol space
        notes := w.notes.update n fun a => { a with symbol := some s }
        openDefinitions := s :: w.openDefinitions
        tableDefinition := some { table := w.index.tables.next, buffer := s } } := by
  unfold beginTable at hok
  obtain ⟨v, w₁, hget, hrest⟩ := bind_ok.1 hok
  cases hget
  cases hopen : w.tableDefinition with
  | some d =>
    rw [hopen] at hrest
    obtain ⟨_, _, hfail, -⟩ := bind_ok.1 hrest
    cases hfail
  | none =>
    rw [hopen] at hrest
    obtain ⟨x, w₂, hx, hpush⟩ := bind_ok.1 hrest
    cases hx
    obtain ⟨_, w₃, hmodify, hcreate⟩ := bind_ok.1 hpush
    cases hmodify
    obtain ⟨b, w₄, hnew, hattaching⟩ := bind_ok.1 hcreate
    obtain ⟨rfl, rfl⟩ := createSymbol_ok hnew
    obtain ⟨_, w₅, hattach, hlast⟩ := bind_ok.1 hattaching
    obtain ⟨symbol, space, found, leads, rfl⟩ := attach_ok hattach
    cases hlast
    exact ⟨rfl, rfl, symbol, space, found, leads, rfl⟩

theorem logs_beginTable (licensed : l.tables) {n : NodeId} (onNode : l.nodes n) (name : String)
    {kind : TableKind} (own : kind ≠ .schema) :
    Logs env l (beginTable n name kind) fun s ds => ds = [.make s .table, .attach s] := by
  intro w s w' hok
  obtain ⟨-, rfl, symbol, space, found, leads, rfl⟩ := beginTable_ok hok
  have pushed : Calm l w { w with index := { w.index with
      tables := w.index.tables.push { name, kind, definitionNode := some n } } } :=
    { Calm.refl l w with kinds := Arena.keeps_push _ _ _, tables := absurd licensed }
  refine ⟨_, .deed pushed (.make ?_ ?_ (fun _ => ?_) ?_)
    (.deed (.annotate onNode) (.attach found leads) (.calm (.same rfl rfl rfl rfl))), rfl⟩
  all_goals simp [spaceOf?, Symbol.parameterList, own]

/-- A new field is reached through a new symbol, which may be moved to the node of the field. -/
theorem beginField_calm (hs : Sound w) (licensed : l.tables) {n : NodeId} (onNode : l.nodes n)
    {name : String} {p : FieldId × SymbolId} (hok : beginField n name w = .ok p w') :
    Calm l w w' := by
  obtain ⟨buffer, owner, b, howner, hbuffer, rfl⟩ := beginField_ok n hs hok
  let x := w.index.withField buffer owner b name
  let made : Symbol :=
    { name, scope := owner.scope, definitionNode := none, attached := true,
      kind := .fieldBuffer ⟨buffer, w.index.fields.next⟩ }
  have pushed : w.index.symbols.Grows Symbol.core (Symbol.Hidden w.index.schemaTables)
      (w.index.symbols.push made) := Arena.grows_push (.field rfl rfl)
  have reaches : (w.index.symbols.push made).Grows Symbol.core
      (Symbol.Hidden w.index.schemaTables) x.symbols := by
    refine Arena.grows_update fun v hv => ?_
    rw [Arena.get?_push_of_get? howner] at hv
    cases hv
    simp [Symbol.core, SymbolKind.core, Symbol.asRoutine?, hbuffer]
  have relocated : x.symbols.Grows Symbol.core (Symbol.Hidden w.index.schemaTables)
      (x.symbols.update w.index.symbols.next fun s => { s with definitionNode := some n }) := by
    refine Arena.grows_update fun v hv => ?_
    rw [get?_withField w.index name howner] at hv
    cases hv
    rfl
  refine { Calm.annotate (w := w) onNode with symbols := ?_, fields := absurd licensed }
  exact (pushed.trans reaches fun _ _ hidden same => hidden.core same).trans relocated
    fun _ _ hidden same => hidden.core same

end AblResolve.Walk
