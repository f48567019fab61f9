import AblResolve.Proofs.CompleteSymbols
import AblResolve.Proofs.Keeping
/-!
Definitions LIKE something. A definition introduces a symbol without a type. If its one type clause
is a LIKE clause, the symbol gets the type of what the field of the clause stands for, and both have
that type in the end; if the field stands for nothing, the symbol stays without a type and that is
reported. Until the clause is done, no name leads to the symbol.
-/
namespace AblResolve

/-- The definitions of what has a type. -/
def NodeKind.takesType : NodeKind → Bool
  | .defineVariable | .defineParameter | .functionParameter | .defineProperty | .tableField => true
  | _ => false

namespace UnitIndex

variable {x : UnitIndex} {s : SymbolId} {symbol : Symbol}

theorem valueType_of_variable {v : Variable} (found : x.symbols.get? s = some symbol)
    (kind : symbol.kind = .variable v) : x.valueType s = v.type := by
  rw [valueType, found]
  simp only [typeOf, kind]

theorem valueType_of_field {f : FieldBuffer} {v : Field} (found : x.symbols.get? s = some symbol)
    (kind : symbol.kind = .fieldBuffer f) (field : x.fields.get? f.field = some v) :
    x.valueType s = v.type := by
  rw [valueType, found]
  simp only [typeOf, kind, field]

end UnitIndex

namespace Walk

open UnitIndex ParseTree

variable {env : Env} {n : NodeId} {w v w' : Walk} {s : SymbolId}

/-- Entering node `n` has introduced a symbol, which is to get a type. -/
structure Introduces (n : NodeId) (w w' : Walk) : Prop where
  symbol : (w'.notes.get n).symbol = some w.index.symbols.next
  typed : w'.index.HasType w.index.symbols.next
  untyped : w'.index.valueType w.index.symbols.next = {}

theorem introduces_define {name : String} {u : Variable} (untyped : u.type = {})
    (hok : define n name (.variable u) w = .ok s w') : Introduces n w w' := by
  unfold define at hok
  obtain ⟨scope, w₁, hscope, hrest⟩ := bind_ok.1 hok
  obtain ⟨-, same⟩ := currentScope_ok hscope
  subst same
  obtain ⟨i, w₂, hnew, hbegin⟩ := bind_ok.1 hrest
  obtain ⟨rfl, rfl⟩ := createSymbol_ok hnew
  cases hbegin
  have found := Arena.get?_push_next w.index.symbols
    { name, scope, definitionNode := some n, kind := .variable u }
  refine ⟨congrArg Annotation.symbol (Annotations.get_update_self _ _ _), ⟨_, found, rfl⟩, ?_⟩
  exact (valueType_of_variable found rfl).trans untyped

theorem introduces_definition {plan : Plan env.tree n} {u : Variable}
    {complete : SymbolId → List Action} (untyped : u.type = {})
    (hok : enterDefinition env n (.variable u) complete w = .ok plan w') : Introduces n w w' := by
  unfold enterDefinition at hok
  obtain ⟨s, v, hdefine, hpure⟩ := bind_ok.1 hok
  cases hpure
  exact introduces_define untyped hdefine

theorem introduces_property {plan : Plan env.tree n}
    (hok : enterProperty env n w = .ok plan w') : Introduces n w w' := by
  unfold enterProperty at hok
  obtain ⟨s, v, hdefine, hrest⟩ := bind_ok.1 hok
  have introduces := introduces_define rfl hdefine
  generalize (env.tree.childList n).span _ = p at hrest
  obtain ⟨clauses, accessors⟩ := p
  cases accessors <;> cases hrest <;> exact introduces

/-- The field of the table that is being defined. -/
theorem introduces_field (hs : Sound w) {name : String} {p : FieldId × SymbolId}
    (hok : beginField n name w = .ok p w') : Introduces n w w' := by
  obtain ⟨buffer, owner, b, howner, hbuffer, rfl⟩ := beginField_ok n hs hok
  have found : (w.withOpenField n buffer owner b name).index.symbols.get? w.index.symbols.next =
      some {
        name, scope := owner.scope, definitionNode := some n, attached := true,
        kind := .fieldBuffer ⟨buffer, w.index.fields.next⟩ } := by
    simp only [withOpenField, Arena.get?_update, if_true, get?_withField w.index name howner,
      Option.map_some]
  have field : (w.withOpenField n buffer owner b name).index.fields.get? w.index.fields.next =
      some { name } := Arena.get?_push_next _ _
  exact ⟨congrArg Annotation.symbol (Annotations.get_update_self _ _ _), ⟨_, found, rfl⟩,
    valueType_of_field found rfl field⟩

theorem enter_introduces {plan : Plan env.tree n} (hs : Sound w)
    (typed : (env.tree.kind n).takesType) (hok : enter env n w = .ok plan w') :
    Introduces n w w' := by
  unfold enter at hok
  cases hk : env.tree.kind n <;> rw [hk] at typed hok <;> dsimp only at hok
  case defineVariable | defineParameter | functionParameter => exact introduces_definition rfl hok
  case defineProperty => exact introduces_property hok
  case tableField =>
    obtain ⟨p, v, hbegin, hpure⟩ := bind_ok.1 hok
    cases hpure
    exact introduces_field hs hbegin
  all_goals cases typed

/-! ### The visit of a LIKE clause -/

section Visit

variable {c f : NodeId}

/-- A LIKE clause is visited by visiting its field; then what was being defined gets the type of
what the field stands for, or there is a finding. -/
theorem visit_like (kind : env.tree.kind c = .likeClause)
    (hfield : env.tree.childOfKind? c .field = some f) (hs : Sound w)
    (hok : visit env c w = .ok () w') :
    ∃ target rest v v', w.openDefinitions = target :: rest ∧ Tells env f w v ∧
      visit env f v = .ok () v' ∧ copyFieldType env f target v' = .ok () w' ∧
      entries env c w = (c, w) :: entries env f v := by
  have hvisit := hok
  rw [visit] at hok
  obtain ⟨plan, u, henter, -⟩ := bind_ok.1 hok
  have hlike := henter
  simp only [enter, kind] at hlike
  obtain ⟨target, rest, hopen, rfl, hplan⟩ := enterLike_ok hlike
  rw [hfield] at hplan
  subst hplan
  obtain ⟨v, v', tells, visited, done, hentries⟩ := visit_only henter hfield hs hvisit
  cases done with
  | cons sound ok performs act more =>
    cases more
    exact ⟨target, rest, v, v', hopen, tells, visited, ok, hentries⟩

/-- The LIKE clause at node `c`, entered in state `v`, ends with a finding about its field, which
stays in the index. There has been no other one since the clause was entered, apart from those about
the LIKE clauses below the field. -/
def MissesSource (env : Env) (c f : NodeId) (v : Walk) (x : UnitIndex) : Prop :=
  ∃ v₁ v₂ w, v₁.index = v.index ∧ visit env f v₁ = .ok () v₂ ∧ visit env c v = .ok () w ∧
    w.index.diagnostics = v₂.index.diagnostics.add
      (.unresolvedLikeSource (env.tree.text f) (env.tree.location f)) ∧
    w.index.diagnostics.all <+: x.diagnostics.all ∧
    ((∀ e ∈ entries env f v₁, env.tree.kind e.1 ≠ .likeClause) →
      v₂.index.likeFindings = v.index.likeFindings)

end Visit

/-! ### Around the one clause -/

section Sole

variable {es before rest after : List (NodeId × Walk)} {d : SymbolId} {e : NodeId × Walk}

theorem clausesFor_append (d : SymbolId) (es es' : List (NodeId × Walk)) :
    clausesFor env d (es ++ es') = clausesFor env d es ++ clausesFor env d es' :=
  List.filter_append ..

/-- If there is one type clause, there is none around it. -/
theorem clausesFor_others (h : clausesFor env d (before ++ e :: rest ++ after) = [e]) :
    clausesFor env d (before ++ after) = [] ∧ clausesFor env d rest = [] := by
  have own : clausesFor env d [e] = [e] :=
    List.filter_eq_self.2 fun e' he' => (List.mem_singleton.1 he') ▸
      (List.mem_filter.1 (h ▸ List.mem_singleton_self e : e ∈ clausesFor env d _)).2
  rw [← List.singleton_append, clausesFor_append, clausesFor_append, clausesFor_append, own] at h
  have lengths := congrArg List.length h
  simp only [List.length_append, List.length_singleton] at lengths
  rw [clausesFor_append, List.append_eq_nil_iff]
  refine ⟨⟨?_, ?_⟩, ?_⟩ <;> exact List.length_eq_zero_iff.1 (by omega)

theorem exists_entry {m : NodeId} (h : es.map (·.1) = [m]) : ∃ v, es = [(m, v)] := by
  obtain ⟨⟨c, v⟩, rfl, rfl⟩ := List.map_eq_singleton_iff.1 h
  exact ⟨v, rfl⟩

end Sole

section Unit

variable {size : Nat} {D c f : NodeId} {d : SymbolId} {es before after : List (NodeId × Walk)}

/-- What is open when a node is entered has been introduced before that. -/
theorem Around.introduced {v' w₀ : Walk} (h : Around env es (c, v) w w' before after v')
    (hv : Sound v) (isOpen : w₀.index.symbols.next ∈ v.openDefinitions) (he : (D, w₀) ∈ es) :
    (D, w₀) ∈ before := by
  have lt := hv.standing.definitions _ isOpen
  have late : ¬ Strides v w₀ := by
    intro strides
    have grown : v.index.symbols.Keeps Symbol.fixed w₀.index.symbols := strides.extends.symbols
    exact absurd lt (Nat.not_lt.2 grown.size_le)
  have surveys := visit_surveys c hv h.visit
  rw [h.split] at he
  rcases List.mem_append.1 he with he | he
  · rcases List.mem_append.1 he with he | he
    · exact he
    · obtain ⟨_, _, _, inside⟩ := surveys.around _ he
      exact absurd inside.starts.strides late
  · exact absurd (surveys.typed.strides.trans (h.later _ he)) late

/-- A symbol that stands on a definition and is open at some node has been introduced by it. -/
theorem visitUnit_introduces (hok : visitUnit env (start env (.blank size)) = .ok () w)
    (typed : (env.tree.kind D).takesType) (hsymbol : (w.notes.get D).symbol = some d)
    (he : (c, v) ∈ unitEntries env (.blank size)) (isOpen : d ∈ v.openDefinitions) :
    ∃ w₀ plan u, (D, w₀) ∈ unitEntries env (.blank size) ∧ enter env D w₀ = .ok plan u ∧
      d = w₀.index.symbols.next ∧ Introduces D w₀ u := by
  have plain : env.tree.kind D ≠ .identifier := by
    intro h
    rw [h] at typed
    cases typed
  have other : (env.tree.kind D).isBufferDefinition = false := by
    cases hk : env.tree.kind D <;> rw [hk] at typed <;> first | rfl | cases typed
  rcases visitUnit_heading hok plain other with same | ⟨w₀, plan, u, he₀, henter, same⟩
  · -- nothing is open in the beginning
    obtain ⟨_, _, _, around⟩ := (visitUnit_surveys hok).around _ he
    have started : ((start env (.blank size)).notes.get D).symbol = some d :=
      (congrArg (·.1) same).symm.trans hsymbol
    rcases around.starts.strides.opened d isOpen with old | new
    · cases old
    · rcases symbol_update started with ⟨-, hroot⟩ | ⟨-, hblank⟩
      · cases hroot
        exact absurd new (Nat.not_succ_le_zero 0)
      · rw [Annotations.get_blank] at hblank
        cases hblank
  · have introduces := enter_introduces (sound_of_mem_unitEntries he₀) typed henter
    have entered : (u.notes.get D).symbol = some d := (congrArg (·.1) same).symm.trans hsymbol
    rw [introduces.symbol] at entered
    cases entered
    exact ⟨w₀, plan, u, he₀, henter, rfl, introduces⟩

/-- The one type clause of a definition, if it is a LIKE clause: node `c` is entered in state `v`
with `d` open, its field `f` is visited from `v₁` to `v₂`, and the clause is done in state `v'`. -/
structure LikeClause (env : Env) (size : Nat) (d : SymbolId) (c f : NodeId) (w : Walk)
    (before after : List (NodeId × Walk)) (v v₁ v₂ v' : Walk) : Prop where
  around : Around env (unitEntries env (.blank size)) (c, v) (start env (.blank size)) w before
    after v'
  regular : Regular v
  isOpen : d ∈ v.openDefinitions
  typed : v.index.HasType d
  others : clausesFor env d (before ++ after) = []
  tells : Tells env f v v₁
  visit : visit env f v₁ = .ok () v₂
  untyped : v₂.index.valueType d = {}
  copies : copyFieldType env f d v₂ = .ok () v'
  entries : entries env c v = (c, v) :: Walk.entries env f v₁

theorem visitUnit_likeClause (hok : visitUnit env (start env (.blank size)) = .ok () w)
    (typed : (env.tree.kind D).takesType) (hsymbol : (w.notes.get D).symbol = some d)
    (sole : clausesFor env d (unitEntries env (.blank size)) = [(c, v)])
    (kind : env.tree.kind c = .likeClause) (hfield : env.tree.childOfKind? c .field = some f) :
    ∃ before after v₁ v₂ v' w₀, (D, w₀) ∈ before ∧
      LikeClause env size d c f w before after v v₁ v₂ v' := by
  obtain ⟨he, own⟩ := List.mem_filter.1 (sole ▸ List.mem_singleton_self (c, v) :
    (c, v) ∈ clausesFor env d (unitEntries env (.blank size)))
  have innermost : v.openDefinitions.head? = some d :=
    of_decide_eq_true ((Bool.and_eq_true _ _).mp own).2
  obtain ⟨before, after, v', around⟩ := (visitUnit_surveys hok).around _ he
  have regular : Regular v := regular_of_mem_unitEntries hok he
  obtain ⟨target, rest, v₁, v₂, hopen, tells, visit, copies, entries⟩ :=
    visit_like kind hfield regular.sound around.visit
  have same : target = d := by simpa [hopen] using innermost
  subst same
  have isOpen : target ∈ v.openDefinitions := hopen ▸ List.mem_cons_self
  -- the definition has introduced its symbol before the clause
  obtain ⟨w₀, plan, u, he₀, henter, rfl, introduces⟩ :=
    visitUnit_introduces hok typed hsymbol he isOpen
  have introduced := around.introduced regular.sound isOpen he₀
  obtain ⟨plan', u', henter', onward⟩ := around.earlier _ introduced
  rw [henter] at henter'
  cases henter'
  have regular₀ := regular_of_mem_unitEntries hok he₀
  have hu := (((ends_enter env D regular₀.sound).ok henter).enters.strides
    regular₀.sound).regular regular₀
  obtain ⟨symbol, found, -⟩ := introduces.typed
  rw [around.split, entries] at sole
  obtain ⟨others, below⟩ := clausesFor_others sole
  have untyped := (onward.types hu _ (Arena.lt_size_of_get? found) others).trans introduces.untyped
  refine ⟨before, after, v₁, v₂, v', w₀, introduced, around, regular, isOpen,
    introduces.typed.extends onward.strides.extends, others, tells, visit, ?_, copies, entries⟩
  -- and the visit of the field has left it without a type
  have regular₁ : Regular v₁ :=
    Strides.regular (.single ⟨tells.stride, tells.sound regular.sound⟩) regular
  have told : v₁.index = v.index := by
    obtain ⟨qualifiers, hints, rfl⟩ := tells.eq
    rfl
  have lt := regular.sound.standing.definitions _ isOpen
  rw [(visit_surveys f regular₁.sound visit).typed.types regular₁ _ (told ▸ lt) below, told]
  exact untyped

namespace LikeClause

variable {v₁ v₂ v' : Walk} (h : LikeClause env size d c f w before after v v₁ v₂ v')
include h

theorem regular_field : Regular v₁ ∧ Regular v₂ := by
  have regular₁ : Regular v₁ :=
    Strides.regular (.single ⟨h.tells.stride, h.tells.sound h.regular.sound⟩) h.regular
  exact ⟨regular₁, (visit_surveys f regular₁.sound h.visit).typed.strides.regular regular₁⟩

theorem extends_field : v.index.Extends v₂.index :=
  h.tells.stride.extends.trans
    (visit_surveys f h.regular_field.1.sound h.visit).typed.strides.extends

theorem isOpen_field : d ∈ v₂.openDefinitions := by
  have visited := ((ends_visit env f h.regular_field.1.sound).ok h.visit).1
  have same : v₂.openDefinitions = v.openDefinitions :=
    congrArg Frame.definitions (visited.frame.trans h.tells.frame)
  exact same ▸ h.isOpen

/-- The clause leaves the symbol open. -/
theorem later : Regular v' ∧ d ∈ v'.openDefinitions ∧ v'.index.HasType d := by
  have hs := h.regular.sound
  have strides := (visit_surveys c hs h.around.visit).typed.strides
  have same : v'.openDefinitions = v.openDefinitions :=
    congrArg Frame.definitions ((ends_visit env c hs).ok h.around.visit).1.frame
  exact ⟨strides.regular h.regular, same ▸ h.isOpen, h.typed.extends strides.extends⟩

theorem mem_unitEntries {e : NodeId × Walk} (he : e ∈ before ++ Walk.entries env c v) :
    e ∈ unitEntries env (.blank size) := by
  rw [h.around.split]
  exact List.mem_append_left _ he

/-- Entering the field of the clause. -/
theorem enter_field : (f, v₁) ∈ unitEntries env (.blank size) ∧
    ∃ plan u, enter env f v₁ = .ok plan u ∧ Strides u v₂ ∧
      (env.tree.kind f = .field → meaning (v₂.notes.get f) = meaning (u.notes.get f)) := by
  have mem : (f, v₁) ∈ Walk.entries env f v₁ := by
    rw [Walk.entries]
    exact List.mem_cons_self
  have hs := h.regular_field.1.sound
  obtain ⟨plan, u, henter, typed⟩ := (visit_surveys f hs h.visit).entered _ mem
  refine ⟨h.mem_unitEntries ?_, plan, u, henter, typed.strides, fun kind => ?_⟩
  · rw [h.entries]
    exact List.mem_append_right _ (List.mem_cons_of_mem _ mem)
  · exact (visit_settles env f hs h.visit f v₁ plan u mem henter).2 f (.of_field kind)

variable (hok : visitUnit env (start env (.blank size)) = .ok () w)
  (kind : env.tree.kind f = .field)
include hok kind

/-- When the clause is done, the field stands for what it stands for in the end. -/
theorem symbol : (v₂.notes.get f).symbol = (w.notes.get f).symbol := by
  obtain ⟨mem, plan, u, henter, -, settled⟩ := h.enter_field
  have last := (visitUnit_settles hok f v₁ plan u mem henter).2 f (.of_field kind)
  exact congrArg (·.1) ((settled kind).trans last.symm)

/-- If the field stands for something, both have the same type in the end. -/
theorem found (hclause : (env.tree.kind c).isTypeClause)
    (hsymbol : (w.notes.get f).symbol = some s) :
    w.index.valueType d = w.index.valueType s := by
  obtain ⟨mem, plan, u, henter, toCopy, -⟩ := h.enter_field
  obtain ⟨_, _, henter', toEnd⟩ := (visitUnit_surveys hok).entered _ mem
  rw [henter] at henter'
  cases henter'
  obtain ⟨regular, complete⟩ := visitUnit_complete hok mem henter (.of_field kind) hsymbol
  obtain ⟨-, regular₂⟩ := h.regular_field
  obtain ⟨regular', isOpen', -⟩ := h.later
  rcases copyFieldType_ok h.copies with ⟨source, hsource, hcopy⟩ | ⟨hnone, -⟩
  · rw [h.symbol hok kind, hsymbol] at hsource
    cases hsource
    have retypes := regular₂.copyType_retypes hclause h.isOpen_field hcopy
    have typed₂ := h.typed.extends h.extends_field
    calc w.index.valueType d
      _ = v'.index.valueType d :=
        h.around.ends.types regular' d (regular'.sound.standing.definitions d isOpen') h.others
      _ = (v₂.index.valueType d).like (v₂.index.valueType s) := retypes.type typed₂
      _ = v₂.index.valueType s := by rw [h.untyped, (regular₂.proper.valueType s).like]
      _ = u.index.valueType s := complete.valueType regular toCopy
      _ = w.index.valueType s := (complete.valueType regular toEnd.strides).symm
  · rw [h.symbol hok kind, hsymbol] at hnone
    cases hnone

/-- If the field stands for nothing, the symbol has no type in the end, and there is a finding. -/
theorem missed (hsymbol : (w.notes.get f).symbol = none) :
    w.index.valueType d = {} ∧ MissesSource env c f v w.index := by
  obtain ⟨regular₁, regular₂⟩ := h.regular_field
  obtain ⟨regular', isOpen', -⟩ := h.later
  have told : v₁.index = v.index := by
    obtain ⟨qualifiers, hints, rfl⟩ := h.tells.eq
    rfl
  rcases copyFieldType_ok h.copies with ⟨source, hsource, -⟩ | ⟨-, reported⟩
  · rw [h.symbol hok kind, hsymbol] at hsource
    cases hsource
  · have same : v'.index.valueType d = v₂.index.valueType d := by
      rw [reported]
      rfl
    refine ⟨?_, v₁, v₂, v', told, h.visit, h.around.visit, by rw [reported], ?_, fun unlike => ?_⟩
    · rw [h.around.ends.types regular' d (regular'.sound.standing.definitions d isOpen') h.others,
        same, h.untyped]
    · exact (h.around.ends.strides.keepsFinished regular'.sound regular'.tables).diagnostics
    · rw [(visit_surveys f regular₁.sound h.visit).typed.findings regular₁ unlike, told]

omit kind in
/-- Until the clause is done, no name leads to the symbol. -/
theorem hidden {k : NodeId} {e : NodeId × Walk} (he : e ∈ before ++ Walk.entries env c v)
    (names : Names env e.1 k) : (w.notes.get k).symbol ≠ some d := by
  intro hsymbol
  have mem := h.mem_unitEntries he
  rcases List.mem_append.1 he with he | he
  · obtain ⟨plan, u, henter, onward⟩ := h.around.earlier e he
    obtain ⟨regular, complete⟩ := visitUnit_complete hok mem henter names hsymbol
    exact h.regular.not_complete h.isOpen h.typed (complete.strides regular onward.strides)
  · obtain ⟨plan, u, henter, onward⟩ :=
      (visit_surveys c h.regular.sound h.around.visit).entered e he
    obtain ⟨regular, complete⟩ := visitUnit_complete hok mem henter names hsymbol
    obtain ⟨regular', isOpen', typed'⟩ := h.later
    exact regular'.not_complete isOpen' typed' (complete.strides regular onward.strides)

end LikeClause

end Unit

end Walk

namespace CompilationUnit

open UnitIndex Walk

/-- Let a definition have one type clause only, a LIKE clause with a field. If the field stands for
something, that is not what is being defined, and both have the same type in the end. If it stands
for nothing, what is being defined has no data type and is a scalar, and the clause has added one
finding, about the field. In both cases, no name that has been looked up before the clause is done
leads to what is being defined. -/
theorem analyze_ofTree_like (catalog : Catalog) (types : TypeRegistry) (options : Options)
    (tree : ParseTree) {index : UnitIndex} {u : CompilationUnit}
    (hok : (ofTree tree).analyze catalog types options = (.ok index, u)) :
    let env : Env := { tree, catalog, types, options }
    let entered := unitEntries env (.blank tree.size)
    ∀ D d c v f, (tree.kind D).takesType → (u.notes.get D).symbol = some d →
      clausesFor env d entered = [(c, v)] → tree.kind c = .likeClause →
      tree.childOfKind? c .field = some f →
      (∀ s, (u.notes.get f).symbol = some s → s ≠ d ∧ index.valueType d = index.valueType s) ∧
      ((u.notes.get f).symbol = none → index.valueType d = {} ∧ MissesSource env c f v index) ∧
      ∃ before after w₀, entered = before ++ entries env c v ++ after ∧ (D, w₀) ∈ before ∧
        ∀ e ∈ before ++ entries env c v, ∀ k, Names env e.1 k →
          (u.notes.get k).symbol ≠ some d := by
  intro env entered D d c v f takesType hsymbol sole kind hfield
  obtain ⟨w, hvisit, rfl, rfl⟩ := analyze_ok catalog types options hok
  have hw : visitUnit env (start env (.blank tree.size)) = .ok () w := hvisit
  obtain ⟨before, after, v₁, v₂, v', w₀, introduced, clause⟩ :=
    visitUnit_likeClause hw takesType hsymbol sole kind hfield
  have hclause : (tree.kind c).isTypeClause := by
    rw [kind]
    rfl
  have isField : tree.kind f = .field := by simpa using List.find?_some hfield
  have below : (f, v₁) ∈ before ++ entries env c v := by
    rw [clause.entries, entries]
    exact List.mem_append_right _ (List.mem_cons_of_mem _ List.mem_cons_self)
  have hidden : ∀ e ∈ before ++ entries env c v, ∀ k, Names env e.1 k →
      (w.notes.get k).symbol ≠ some d := fun e he k names => clause.hidden hw he names
  refine ⟨fun s hs => ⟨?_, clause.found hw isField hclause hs⟩, clause.missed hw isField,
    before, after, w₀, clause.around.split, introduced, hidden⟩
  rintro rfl
  exact hidden _ below f (.of_field isField) hs

/-- An array, a variable like it, and one that is to be like itself. -/
def likeClauseSample : ParseTree := .ofRows [
  (0, .defineVariable, ""), (1, .identifier, "x"), (1, .asClause, ""), (3, .datatype .integer, ""),
  (1, .extentClause, ""), (5, .literal, "3"),
  (0, .defineVariable, ""), (7, .identifier, "y"), (7, .likeClause, ""), (9, .field, "x"),
  (0, .defineVariable, ""), (11, .identifier, "z"), (11, .likeClause, ""), (13, .field, "z")]

/-- In the sample, `y` is an array as `x` is, and `z` has no type. -/
theorem analyze_ofTree_likeClauseSample :
    ∃ index u, (ofTree likeClauseSample).analyze {} {} {} = (.ok index, u) ∧
      index.valueType ⟨2⟩ = { dataType := some .integer, extent := .fixed 3 } ∧
      index.valueType ⟨3⟩ = {} ∧
      ∃ v, MissesSource { tree := likeClauseSample } ⟨13⟩ ⟨14⟩ v index := by
  obtain ⟨index, hok, array⟩ := exists_analyze_ok_and (u := ofTree likeClauseSample) {} {} {}
    (P := fun x => x.valueType ⟨1⟩ = { dataType := some .integer, extent := .fixed 3 })
    (by decide +kernel)
  let env : Env := { tree := likeClauseSample }
  let entered := unitEntries env (.blank likeClauseSample.size)
  have first : (clausesFor env ⟨2⟩ entered).map (·.1) = [⟨9⟩] := by decide +kernel
  have second : (clausesFor env ⟨3⟩ entered).map (·.1) = [⟨13⟩] := by decide +kernel
  have symbols : ([⟨7⟩, ⟨10⟩, ⟨11⟩, ⟨14⟩] : List NodeId).map (fun m =>
      (((ofTree likeClauseSample).analyze {} {} {}).2.notes.get m).symbol) =
        [some ⟨2⟩, some ⟨1⟩, some ⟨3⟩, none] := by decide +kernel
  obtain ⟨v, sole⟩ := exists_entry first
  obtain ⟨v', sole'⟩ := exists_entry second
  generalize ((ofTree likeClauseSample).analyze {} {} {}).2 = u at hok symbols
  simp only [List.map_cons, List.map_nil, List.cons.injEq, and_true] at symbols
  obtain ⟨y, x, z, unknown⟩ := symbols
  have likes := analyze_ofTree_like {} {} {} likeClauseSample hok
  obtain ⟨found, -⟩ := likes ⟨7⟩ ⟨2⟩ ⟨9⟩ v ⟨10⟩ (by decide) y sole (by decide) (by decide)
  obtain ⟨-, missed, -⟩ := likes ⟨11⟩ ⟨3⟩ ⟨13⟩ v' ⟨14⟩ (by decide) z sole' (by decide) (by decide)
  obtain ⟨-, same⟩ := found ⟨1⟩ x
  obtain ⟨untyped, reported⟩ := missed unknown
  exact ⟨index, u, hok, same.trans array, untyped, v', reported⟩

end CompilationUnit

end AblResolve
