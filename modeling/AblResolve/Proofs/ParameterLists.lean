import AblResolve.Proofs.OpenEvents
import AblResolve.Proofs.Settling
import Mathlib.Data.List.Basic
/-!
Lists of parameters. Every node that stands for a parameter adds one entry to one list when it is
completed: to the signature that is being read, that of the innermost event around the node, or else
to the list of the routine whose code is being read. Nothing else adds to a list, so each holds the
parameters of its nodes in the order in which these are completed.
-/
namespace AblResolve

open UnitIndex

/-- The parameters of a symbol. -/
def UnitIndex.parametersOf (x : UnitIndex) (i : SymbolId) :
    List (SymbolId × Option ParameterMode) :=
  ((x.symbols.get? i).map Symbol.parameterList).getD []

/-- The routine around a scope stays the same. -/
theorem UnitIndex.Extends.enclosingRoutine? {x y : UnitIndex} (ext : x.Extends y)
    (tree : x.ScopeTree) (s : ScopeId) (hs : s.val < x.scopes.size) :
    y.enclosingRoutine? s = x.enclosingRoutine? s := by
  have own : ∀ s : ScopeId, s.val < x.scopes.size →
      (y.scopes.get? s).bind (·.routine) = (x.scopes.get? s).bind (·.routine) := by
    intro s hs
    obtain ⟨scope, hscope⟩ := Arena.exists_get? hs
    obtain ⟨scope', hscope', fixed⟩ := ext.scopes s scope hscope
    rw [hscope, hscope']
    exact congrArg (·.2.2.2.1) fixed
  have chain := ext.scopeChain tree
  revert s
  refine tree.induct (P := fun s => y.enclosingRoutine? s = x.enclosingRoutine? s) ?_ ?_
  · intro hlt hnone
    rw [UnitIndex.enclosingRoutine?, chain _ hlt, UnitIndex.enclosingRoutine?,
      scopeChain_of_none hnone, List.findSome?_singleton, List.findSome?_singleton, own _ hlt]
  · intro s p hs hp older ih
    unfold UnitIndex.enclosingRoutine? at ih ⊢
    have hpx := scopeChain_of_some hp older
    have hlt : p.val < x.scopes.size := Nat.lt_trans older hs
    rw [chain p hlt] at ih
    rw [chain s hs, hpx, List.findSome?_cons, List.findSome?_cons, own s hs, ih]

namespace Walk

open ParseTree

/-! ### What deeds add -/

/-- What a deed adds to the parameters of a symbol. -/
def Deed.adds (i : SymbolId) : Deed → Option (SymbolId × Option ParameterMode)
  | .sign event s => if event = i then some (s, none) else none
  | .enlist routine s mode => if routine = i then some (s, some mode) else none
  | _ => none

/-- A deed adds parameters only to events and to routines. -/
def Deed.Aims (x : UnitIndex) : Deed → Prop
  | .sign event _ => x.HasSpace event .event
  | .enlist routine _ _ => x.HasSpace routine .routine
  | _ => True

section Adding

variable {env : Env} {l : Licence} {w w' : Walk} {ds : List Deed} {d : Deed} {i : SymbolId}
  {s : Symbol}

theorem parametersOf_of_get? {x : UnitIndex} (h : x.symbols.get? i = some s) :
    x.parametersOf i = s.parameterList := by
  rw [parametersOf, h]
  rfl

theorem parametersOf_of_none {x : UnitIndex} (h : x.symbols.get? i = none) :
    x.parametersOf i = [] := by
  rw [parametersOf, h]
  rfl

theorem parameterList_of_core {s' : Symbol} (h : s'.core = s.core) :
    s'.parameterList = s.parameterList := by
  have core : ∀ s : Symbol, s.core.parameterList = s.parameterList := fun s => by
    cases hk : s.kind <;> simp [Symbol.parameterList, Symbol.core, SymbolKind.core, hk]
  rw [← core s', h, core]

theorem kind_of_hasSpace_routine (h : s.kind.space? = some .routine) :
    ∃ r, s.kind = .routine r := by
  cases hk : s.kind with
  | routine r => exact ⟨r, rfl⟩
  | tableBuffer b =>
    rw [hk] at h
    cases hb : b.isDefault <;> simp [SymbolKind.space?, hb] at h
  | _ => simp [hk, SymbolKind.space?] at h

/-- A symbol that has changed otherwise has the same parameters. -/
theorem parametersOf_update {x y : UnitIndex} {j : SymbolId} {f : Symbol → Symbol}
    (symbols : y.symbols = x.symbols.update j f)
    (same : ∀ s : Symbol, (f s).parameterList = s.parameterList) :
    y.parametersOf i = x.parametersOf i := by
  rw [parametersOf, parametersOf, symbols, Arena.get?_update]
  split
  · cases x.symbols.get? i <;> simp [same]
  · rfl

theorem Calm.parametersOf (h : Calm l w w') : w'.index.parametersOf i = w.index.parametersOf i := by
  cases old : w.index.symbols.get? i with
  | some s =>
    obtain ⟨s', hs', same⟩ := h.symbols.keeps i s old
    rw [parametersOf_of_get? old, parametersOf_of_get? hs', parameterList_of_core same]
  | none =>
    rw [parametersOf_of_none old]
    cases new : w'.index.symbols.get? i with
    | none => exact parametersOf_of_none new
    | some s =>
      rw [parametersOf_of_get? new]
      rcases h.symbols.new i s new with hlt | hidden
      · obtain ⟨s', hs'⟩ := Arena.exists_get? hlt
        rw [old] at hs'
        cases hs'
      · cases hidden with
        | field _ kind => simp [Symbol.parameterList, kind]
        | default _ kind => simp [Symbol.parameterList, kind]

theorem Effect.parametersOf (h : Effect env w d w') (aims : d.Aims w.index) :
    w'.index.parametersOf i = w.index.parametersOf i ++ (d.adds i).toList := by
  cases h with
  | @make s space pending named root bare =>
    rw [UnitIndex.parametersOf, withSymbol, Arena.get?_push]
    split
    · rename_i heq
      have none : w.index.symbols.get? w.index.symbols.next = none := by
        cases h : w.index.symbols.get? w.index.symbols.next with
        | none => rfl
        | some v => exact absurd (Arena.lt_size_of_get? h) (Nat.lt_irrefl _)
      rw [heq, parametersOf_of_none none]
      exact bare
    · exact (List.append_nil _).symm
  | attach | relocate =>
    refine (parametersOf_update rfl ?_).trans (List.append_nil _).symm
    exact fun _ => rfl
  | sign event s =>
    obtain ⟨v, hv, space⟩ := aims
    obtain ⟨v', ps, hv', kind⟩ := isEvent_iff.2 ⟨v, hv, space⟩
    by_cases hi : event = i
    · subst hi
      have get : (w.index.symbols.update event (·.signed s)).get? event = some (v'.signed s) := by
        rw [Arena.get?_update, if_pos rfl, hv']
        rfl
      rw [parametersOf_of_get? get, parametersOf_of_get? hv', Deed.adds, if_pos rfl]
      simp [Symbol.parameterList, Symbol.signed, kind]
    · rw [UnitIndex.parametersOf, Arena.get?_update, if_neg hi, Deed.adds, if_neg hi]
      exact (List.append_nil _).symm
  | enlist routine s mode =>
    obtain ⟨v, hv, space⟩ := aims
    obtain ⟨r, kind⟩ := kind_of_hasSpace_routine space
    by_cases hi : routine = i
    · subst hi
      have get : (w.index.symbols.update routine (·.enlisted s mode)).get? routine =
          some (v.enlisted s mode) := by
        rw [Arena.get?_update, if_pos rfl, hv]
        rfl
      rw [parametersOf_of_get? get, parametersOf_of_get? hv, Deed.adds, if_pos rfl]
      simp [Symbol.parameterList, Symbol.enlisted, kind]
    · rw [UnitIndex.parametersOf, Arena.get?_update, if_neg hi, Deed.adds, if_neg hi]
      exact (List.append_nil _).symm
  | turn | announce | take | load => exact (List.append_nil _).symm

theorem Deed.Aims.calm (h : d.Aims w.index) (calm : Calm l w w') : d.Aims w'.index := by
  cases d <;> first | trivial | exact calm.hasSpace h

theorem Deed.Aims.effect {d' : Deed} (h : d.Aims w.index) (effect : Effect env w d' w') :
    d.Aims w'.index := by
  cases d <;> first | trivial | exact effect.hasSpace h

/-- The deeds between two states are all that adds parameters. -/
theorem Log.parametersOf (h : Log env l w ds w') (aims : ∀ d ∈ ds, d.Aims w.index) :
    w'.index.parametersOf i = w.index.parametersOf i ++ ds.filterMap (·.adds i) := by
  induction h with
  | calm calm => exact calm.parametersOf.trans (List.append_nil _).symm
  | @deed w w₁ w₂ w' d ds before effect _ ih =>
    have own := (aims d List.mem_cons_self).calm before
    rw [ih fun d' hd => ((aims d' (List.mem_cons_of_mem _ hd)).calm before).effect effect,
      effect.parametersOf own, before.parametersOf, List.append_assoc]
    cases hd : d.adds i <;> simp [hd]

end Adding

/-! ### What nodes add -/

/-- The event or routine to which a parameter goes in state `w`: that whose signature is being read,
or else the routine around the current scope. -/
def recipient? (w : Walk) : Option SymbolId :=
  w.openEvent.or (w.index.enclosingRoutine? w.scope)

/-- How the mode of a parameter is listed: signatures of events have none. -/
def listedMode (w : Walk) (mode : ParameterMode) : Option ParameterMode :=
  if w.openEvent.isSome then none else some mode

/-- The parameter that a node stands for, with its mode: what is written on the node itself, or for
a table on its first record. -/
def parameter? (env : Env) (notes : Annotations) (n : NodeId) : Option (SymbolId × ParameterMode) :=
  match env.tree.kind n with
  | .defineParameter | .functionParameter => (notes.get n).symbol.map (·, parameterMode env n)
  | .bufferParameter => (notes.get n).symbol.map (·, .buffer)
  | .tableParameter => (env.tree.childOfKind? n .record).bind fun r =>
      (notes.get r).symbol.map (·, parameterMode env n)
  | _ => none

/-- What a node, entered in state `e.2`, adds to the parameters of symbol `i`. -/
def addsTo (env : Env) (notes : Annotations) (i : SymbolId) (e : NodeId × Walk) :
    Option (SymbolId × Option ParameterMode) :=
  (parameter? env notes e.1).bind fun p =>
    if e.2.recipient? = some i then some (p.1, e.2.listedMode p.2) else none

/-- The actions that add a parameter to a list. -/
def Action.joins : Action → Bool
  | .addParameter .. | .addBufferParameter .. | .addTableParameter .. => true
  | _ => false

section Nodes

variable {env : Env} {l : Licence} {n : NodeId} {u v w w' : Walk} {ds : List Deed} {a : Action}
  {s : SymbolId} {mode : ParameterMode} {i : SymbolId} {notes notes' : Annotations}

theorem parameter?_of_not (h : ¬ StandsForParameter env.tree n) :
    parameter? env notes n = none := by
  unfold StandsForParameter at h
  unfold parameter?
  cases hk : env.tree.kind n <;> simp_all

theorem parameter?_of_definition
    (kind : env.tree.kind n = .defineParameter ∨ env.tree.kind n = .functionParameter)
    (symbol : (notes.get n).symbol = some s) :
    parameter? env notes n = some (s, parameterMode env n) := by
  unfold parameter?
  rcases kind with kind | kind <;> rw [kind] <;> simp [symbol]

/-- The parameter that a node stands for is written at or below the node. -/
theorem parameter?_congr
    (h : ∀ k, env.tree.Within n k → (notes'.get k).heading = (notes.get k).heading) :
    parameter? env notes' n = parameter? env notes n := by
  have symbol : ∀ k, env.tree.Within n k → (notes'.get k).symbol = (notes.get k).symbol :=
    fun k hk => congrArg (·.1) (h k hk)
  unfold parameter?
  split
  · rw [symbol n (.refl n)]
  · rw [symbol n (.refl n)]
  · rw [symbol n (.refl n)]
  · cases hr : env.tree.childOfKind? n .record with
    | none => rfl
    | some r =>
      rw [Option.bind_some, Option.bind_some,
        symbol r (within_of_mem_children (List.mem_of_find?_eq_some hr))]
  · rfl

theorem Acting.adds_none (h : Acting w w' a ds) (quiet : a.joins = false) :
    (∀ d ∈ ds, d.Aims w.index) ∧ ds.filterMap (·.adds i) = [] := by
  cases h with
  | idle => exact ⟨by simp, rfl⟩
  | attach | closeEvent | defineBuffer => exact ⟨by simp [Deed.Aims], rfl⟩
  | _ => cases quiet

/-- Other actions add no parameter. -/
theorem Done.parametersOf {as : List Action} (h : Done env n w as w')
    (quiet : ∀ a ∈ as, a.joins = false) : w'.index.parametersOf i = w.index.parametersOf i := by
  induction h with
  | nil => rfl
  | cons sound ok performs act rest ih =>
    obtain ⟨ds, log, acting⟩ := perform_log ok
    obtain ⟨aims, none⟩ := acting.adds_none (i := i) (quiet _ List.mem_cons_self)
    rw [ih fun a ha => quiet a (List.mem_cons_of_mem _ ha), log.parametersOf aims, none,
      List.append_nil]

theorem Action.joins_of_isPlain (plain : a.isPlain) : a.joins = false := by
  cases a <;> first | rfl | cases plain

theorem Joins.adds {attaching : Bool} (h : Joins w s mode attaching ds) :
    ds.filterMap (·.adds i) =
      if w.recipient? = some i then [(s, w.listedMode mode)] else [] := by
  cases h with
  | @event event reading =>
    rw [recipient?, listedMode, reading]
    by_cases hi : event = i <;> simp [Deed.adds, hi]
  | @routine routine free around =>
    rw [recipient?, listedMode, free, around]
    by_cases hi : routine = i <;> cases attaching <;> simp [Deed.adds, hi]

theorem Joins.aims {attaching : Bool} (h : Joins w s mode attaching ds) (hs : Sound w) :
    ∀ d ∈ ds, d.Aims w.index := by
  intro d hd
  cases h with
  | event reading =>
    cases List.mem_singleton.1 hd
    exact isEvent_iff.1 (hs.standing.event _ reading)
  | @routine routine free around =>
    obtain ⟨r, body, found, v, q, hv, kind, -⟩ := hs.coherent.enclosingRoutine? hs.scope_lt
    rw [around] at found
    cases found
    have isRoutine : w.index.HasSpace routine .routine := ⟨v, hv, by rw [kind]; rfl⟩
    cases attaching <;> simp at hd
    · exact hd ▸ isRoutine
    · rcases hd with rfl | rfl
      · trivial
      · exact isRoutine

/-- A parameter that joins a list is added to it. -/
theorem Joins.parametersOf {attaching : Bool} (front : List Deed)
    (log : Log env l w (front ++ ds) w') (joins : Joins w s mode attaching ds) (hs : Sound w)
    (quiet : ∀ d ∈ front, d.Aims w.index) (none : front.filterMap (·.adds i) = []) :
    w'.index.parametersOf i = w.index.parametersOf i ++
      if w.recipient? = some i then [(s, w.listedMode mode)] else [] := by
  rw [log.parametersOf, List.filterMap_append, none, List.nil_append, joins.adds]
  intro d hd
  rcases List.mem_append.1 hd with hd | hd
  · exact quiet d hd
  · exact joins.aims hs d hd

/-- Where a parameter goes depends on what is open when its node is entered. -/
theorem recipient?_congr (hs : Sound w) (frame : u.frame = w.frame)
    (ext : w.index.Extends u.index) :
    u.recipient? = w.recipient? ∧ u.listedMode = w.listedMode := by
  have event : u.openEvent = w.openEvent := congrArg Frame.event frame
  have scope : u.scope = w.scope := congrArg Frame.scope frame
  have around := ext.enclosingRoutine? hs.coherent.scopeTree w.scope hs.scope_lt
  constructor
  · rw [recipient?, recipient?, event, scope, around]
  · funext mode
    rw [listedMode, listedMode, event]

theorem Act.frame_of_joins {x : UnitIndex} {F₀ F F' : Frame} {found : List NodeId}
    (h : Act env n x F₀ found F a F') (joins : a.joins) : F' = F := by
  cases h <;> first | rfl | cases joins

/-- Parameter `s` has been added to the list that is open, in the frame that it found. -/
structure Enlists (w w' : Walk) (s : SymbolId) (mode : ParameterMode) : Prop where
  frame : w'.frame = w.frame
  lists : ∀ i, w'.index.parametersOf i = w.index.parametersOf i ++
    if w.recipient? = some i then [(s, w.listedMode mode)] else []

/-- A single action that adds a parameter: its deeds, in the frame that it found. -/
theorem Done.joining (h : Done env n w [a] w') (joins : a.joins) :
    Sound w ∧ w'.frame = w.frame ∧ ∃ ds, Log env (acting a) w ds w' ∧ Acting w w' a ds := by
  obtain ⟨sound, ok, x, F₀, found, act⟩ := h.single
  exact ⟨sound, act.frame_of_joins joins, perform_log ok⟩

theorem Done.addParameter (h : Done env n w [.addParameter s mode] w') : Enlists w w' s mode := by
  obtain ⟨sound, frame, ds, log, acting⟩ := h.joining rfl
  cases acting with
  | idle idle => cases idle
  | addParameter joins =>
    exact ⟨frame, fun i => Joins.parametersOf [] log joins sound (by simp) rfl⟩

theorem Done.addBufferParameter {record : Option NodeId}
    (h : Done env n w [.addBufferParameter n record] w') :
    ∃ s, (w'.notes.get n).symbol = some s ∧ Enlists w w' s .buffer := by
  obtain ⟨sound, frame, ds, log, acting⟩ := h.joining rfl
  cases acting with
  | idle idle => cases idle
  | addBufferParameter noted joins =>
    exact ⟨_, noted, frame,
      fun i => Joins.parametersOf [_] log joins sound (by simp [Deed.Aims]) rfl⟩

theorem Done.addTableParameter {r : NodeId} (h : Done env n w [.addTableParameter r mode] w') :
    ∃ s, (w.notes.get r).symbol = some s ∧ Enlists w w' s mode := by
  obtain ⟨sound, frame, ds, log, acting⟩ := h.joining rfl
  cases acting with
  | idle idle => cases idle
  | addTableParameter symbol attached joins =>
    exact ⟨_, symbol, frame, fun i => Joins.parametersOf [] log joins sound (by simp) rfl⟩

theorem enterParameter_ok {plan : Plan env.tree n}
    (kind : env.tree.kind n = .defineParameter ∨ env.tree.kind n = .functionParameter)
    (henter : enter env n w = .ok plan w') :
    ∃ s, (w'.notes.get n).symbol = some s ∧
      plan.leave = [.endDefinition s, .addParameter s (parameterMode env n)] := by
  have hok : enterParameter env n w = .ok plan w' := by
    rw [← henter]
    rcases kind with kind | kind <;> simp only [enter, kind]
  unfold enterParameter enterDefinition define at hok
  obtain ⟨s, w₁, hdefine, hrest⟩ := bind_ok.1 hok
  obtain ⟨scope, w₂, hscope, hcreate⟩ := bind_ok.1 hdefine
  obtain ⟨rfl, rfl⟩ := currentScope_ok hscope
  obtain ⟨s', w₃, hsymbol, hbegin⟩ := bind_ok.1 hcreate
  obtain ⟨rfl, rfl⟩ := createSymbol_ok hsymbol
  obtain ⟨_, w₄, hopen, hpure⟩ := bind_ok.1 hbegin
  cases hopen
  cases hpure
  cases hrest
  exact ⟨_, congrArg Annotation.symbol (Annotations.get_update_self _ _ _), rfl⟩

end Nodes

/-! ### Visits -/

/-- A visit adds what the nodes that it completes add, and all that stand for parameters do. -/
structure Collects (env : Env) (es : List (NodeId × Walk)) (w w' : Walk) : Prop where
  lists : ∀ i, w'.index.parametersOf i =
    w.index.parametersOf i ++ es.filterMap (addsTo env w'.notes i)
  served : ∀ e ∈ es, StandsForParameter env.tree e.1 → (parameter? env w'.notes e.1).isSome

section Visits

variable {env : Env} {n : NodeId} {w₀ u v w w' : Walk} {es : List (NodeId × Walk)}

/-- What is added stays the same as long as nothing is written at and below the nodes. -/
theorem Collects.congr {notes : Annotations} (h : Collects env es w w')
    (same : ∀ e ∈ es, ∀ k, env.tree.Within e.1 k →
      (notes.get k).heading = (w'.notes.get k).heading) :
    (∀ i, w'.index.parametersOf i = w.index.parametersOf i ++ es.filterMap (addsTo env notes i)) ∧
      ∀ e ∈ es, StandsForParameter env.tree e.1 → (parameter? env notes e.1).isSome := by
  refine ⟨fun i => ?_, fun e he stands => ?_⟩
  · rw [h.lists i]
    congr 1
    exact List.filterMap_congr fun e he => by
      rw [addsTo, addsTo, parameter?_congr (same e he)]
  · rw [parameter?_congr (same e he)]
    exact h.served e he stands

/-- A node that adds nothing. -/
theorem Collects.of_quiet {leave : List Action} (done : Done env n u leave w')
    (quiet : ∀ a ∈ leave, a.joins = false) (none : ¬ StandsForParameter env.tree n) :
    Collects env [(n, w)] u w' := by
  refine ⟨fun i => ?_, fun e he stands => ?_⟩
  · rw [done.parametersOf quiet]
    simp [addsTo, parameter?_of_not none]
  · cases List.mem_singleton.1 he
    exact absurd stands none

/-- A node whose parameter is added last. Where it goes is known from the state in which the node
was entered. -/
theorem Collects.of_enlists {s : SymbolId} {mode : ParameterMode} (hs : Sound w)
    (enlists : Enlists v w' s mode) (parameter : parameter? env w'.notes n = some (s, mode))
    (frame : w'.frame = w.frame) (ext : w.index.Extends v.index)
    (before : ∀ i, v.index.parametersOf i = u.index.parametersOf i) :
    Collects env [(n, w)] u w' := by
  obtain ⟨recipient, listed⟩ := recipient?_congr hs (enlists.frame.symm.trans frame) ext
  refine ⟨fun i => ?_, fun e he _ => ?_⟩
  · rw [enlists.lists, before, recipient, listed, List.filterMap_cons, addsTo, parameter]
    by_cases hi : w.recipient? = some i <;> simp [hi]
  · cases List.mem_singleton.1 he
    rw [parameter]
    rfl

/-- What is done at the end of a node adds the parameter that the node stands for. -/
theorem Leaving.collects {leave : List Action} (h : Leaving env n leave)
    (done : Done env n u leave w') (hs : Sound w) (ext : w.index.Extends u.index)
    (frame : w'.frame = w.frame)
    (own : env.tree.kind n = .defineParameter ∨ env.tree.kind n = .functionParameter →
      ∃ s, (u.notes.get n).symbol = some s ∧
        leave = [.endDefinition s, .addParameter s (parameterMode env n)]) :
    Collects env [(n, w)] u w' := by
  cases h with
  | plain plain none =>
    exact .of_quiet done (fun a ha => Action.joins_of_isPlain (plain a ha)) none
  | event kind =>
    exact .of_quiet done (by simp [Action.joins]) (not_standsForParameter (by rw [kind]; rfl))
  | buffer kind =>
    exact .of_quiet done (by simp [Action.joins]) (not_standsForParameter (by rw [kind]; rfl))
  | parameter kind s =>
    obtain ⟨s', symbol, hleave⟩ := own kind
    simp only [List.cons.injEq, Action.endDefinition.injEq] at hleave
    obtain ⟨rfl, -⟩ := hleave
    have written := done.heading (m := n) (by simp [acting])
    obtain ⟨v, closes, adds⟩ := done.uncons
    exact .of_enlists hs adds.addParameter
      (parameter?_of_definition kind ((congrArg (·.1) written).trans symbol)) frame
      (ext.trans closes.isLocal.ext) fun i => closes.parametersOf (by simp [Action.joins])
  | bufferParameter kind record =>
    obtain ⟨s, symbol, enlists⟩ := done.addBufferParameter
    refine .of_enlists hs enlists ?_ frame ext fun _ => rfl
    unfold parameter?
    rw [kind]
    simp [symbol]
  | @tableParameter kind r first =>
    have written := done.heading (m := r) (by simp [acting])
    obtain ⟨s, symbol, enlists⟩ := done.addTableParameter
    refine .of_enlists hs enlists ?_ frame ext fun _ => rfl
    have symbol' : (w'.notes.get r).symbol = some s := (congrArg (·.1) written).trans symbol
    unfold parameter?
    rw [kind]
    simp [first, symbol']

theorem Collects.append {es' : List (NodeId × Walk)} (h : Collects env es w v)
    (k : Collects env es' v w')
    (same : ∀ e ∈ es, ∀ k, env.tree.Within e.1 k →
      (w'.notes.get k).heading = (v.notes.get k).heading) :
    Collects env (es ++ es') w w' := by
  obtain ⟨lists, served⟩ := h.congr same
  refine ⟨fun i => ?_, fun e he => ?_⟩
  · rw [k.lists, lists, List.filterMap_append, List.append_assoc]
  · rcases List.mem_append.1 he with he | he
    · exact served e he
    · exact k.served e he

/-- Nothing is added where no node is completed. -/
theorem Collects.nothing (h : ∀ i, w'.index.parametersOf i = w.index.parametersOf i) :
    Collects env [] w w' :=
  ⟨fun i => by rw [h, List.filterMap_nil, List.append_nil], nofun⟩

theorem Rounds.collects {steps : List (Step env.tree n)}
    (h : Rounds env n w₀ (fun c v v' => Collects env (exits env c v) v v') steps w w')
    (plain : ∀ s ∈ steps, ∀ a ∈ s.before ++ s.after, a.isPlain) :
    Collects env (stepsExits env steps w) w w' ∧
      ∀ e ∈ stepsExits env steps w, ∃ c ∈ targets steps, env.tree.Within c e.1 := by
  induction h with
  | nil => exact ⟨.nothing fun _ => rfl, by simp [stepsExits, collect]⟩
  | @cons step rest w w₁ w₂ w₃ w₄ w' sound prepared tells before began visit visited child after
      once run others ih =>
    have own := plain _ List.mem_cons_self
    obtain ⟨collects, within⟩ := ih fun s hs => plain s (List.mem_cons_of_mem _ hs)
    rw [stepsExits_cons prepared before run]
    have quiet : ∀ i, w₂.index.parametersOf i = w.index.parametersOf i := by
      intro i
      rw [before.parametersOf fun a ha =>
        Action.joins_of_isPlain (own a (List.mem_append_left _ ha))]
      exact (Calmly.prepare (l := .all) _ _ _ _ prepared).parametersOf
    have later : ∀ i, w₄.index.parametersOf i = w₃.index.parametersOf i := fun i =>
      after.parametersOf fun a ha => Action.joins_of_isPlain (own a (List.mem_append_right _ ha))
    have below : ∀ e ∈ exits env step.child.val w₂, env.tree.Within step.child.val e.1 :=
      fun e he => within_of_mem_exits began.sound visit he
    have ended : ∀ k, (w₄.notes.get k).heading = (w₃.notes.get k).heading := fun k =>
      after.heading fun a ha => Action.writes_none (own a (List.mem_append_right _ ha)) k
    refine ⟨?_, fun e he => ?_⟩
    · have first : Collects env (exits env step.child.val w₂) w w₄ := by
        have upTo := ((Collects.nothing quiet).append child (by simp)).append
          (Collects.nothing later) fun e _ k _ => ended k
        simpa using upTo
      refine first.append collects fun e he k hk => ?_
      refine others.heading (fun s hs => plain s (List.mem_cons_of_mem _ hs)) fun c hc => ?_
      obtain ⟨s, -, rfl⟩ := List.mem_map.1 hc
      refine ((below e he).trans hk).sibling step.child.property s.child.property ?_
      rintro heq
      exact once (heq ▸ hc)
    · rcases List.mem_append.1 he with he | he
      · exact ⟨_, List.mem_cons_self, below e he⟩
      · obtain ⟨c, hc, hwithin⟩ := within e he
        exact ⟨c, List.mem_cons_of_mem _ hc, hwithin⟩

theorem Entering.adds_none {ds : List Deed} {owes : List SymbolId} (h : Entering env n ds owes)
    (i : SymbolId) : (∀ d ∈ ds, d.Aims w.index) ∧ ds.filterMap (·.adds i) = [] := by
  cases h with
  | «inline» kind s loading => cases loading <;> simp [Deed.Aims, Deed.adds]
  | _ => simp [Deed.Aims, Deed.adds]

theorem visit_collects (n : NodeId) (hs : Sound w) (hok : visit env n w = .ok () w') :
    Collects env (exits env n w) w w' := by
  refine visit_rounds (P := fun c v v' => Collects env (exits env c v) v v') ?_ n hs hok
  intro n w plan v v' w' hs henter admitted rounds done visited
  obtain ⟨ds, log, begins⟩ := enter_begins hs henter
  have entered : ∀ i, v.index.parametersOf i = w.index.parametersOf i := fun i => by
    obtain ⟨aims, none⟩ := begins.entering.adds_none (w := w) i
    rw [log.parametersOf aims, none, List.append_nil]
  obtain ⟨collects, within⟩ := rounds.collects begins.steps
  have child : ∀ c ∈ targets plan.steps, c ∈ env.tree.children n := by
    intro c hc
    obtain ⟨s, -, rfl⟩ := List.mem_map.1 hc
    exact s.child.property
  have last : Collects env [(n, w)] v' w' := by
    refine begins.leaving.collects done hs (admitted.enters.extends.trans rounds.extends)
      visited.frame fun kind => ?_
    obtain ⟨s, symbol, leave⟩ := enterParameter_ok kind henter
    refine ⟨s, ?_, leave⟩
    have written := rounds.heading (m := n) begins.steps fun c hc =>
      not_within_of_mem_children (child c hc)
    exact (congrArg (·.1) written).trans symbol
  rw [exits_of_ok henter]
  refine (((Collects.nothing entered).append collects (by simp)).append last fun e he k hk => ?_)
  obtain ⟨c, hc, hwithin⟩ := within e (by simpa using he)
  exact done.heading (begins.leaving.writes ((hwithin.trans hk).ne_parent (child c hc)))

theorem visitUnit_collects {notes : Annotations}
    (hok : visitUnit env (start env notes) = .ok () w) :
    Collects env (unitExits env notes) (start env notes) w := by
  refine ((visitUnit_rounds (fun c _ _ _ hs hok => visit_collects c hs hok) hok).collects
    fun s hs a ha => ?_).1
  obtain ⟨c, -, rfl⟩ := List.mem_map.1 hs
  cases ha

/-! ### As seen from the end -/

/-- Where a parameter goes that was met at node `e.1`, entered in state `e.2`: to the innermost
event around the node, or else to the routine around the scope in which the node was entered. -/
def owner? (env : Env) (x : UnitIndex) (notes : Annotations) (e : NodeId × Walk) :
    Option SymbolId :=
  match env.tree.enclosingEvent? e.1 with
  | some event => (notes.get event).symbol
  | none => x.enclosingRoutine? e.2.scope

/-- What a node adds to the parameters of symbol `i`. -/
def listing (env : Env) (x : UnitIndex) (notes : Annotations) (i : SymbolId) (e : NodeId × Walk) :
    Option (SymbolId × Option ParameterMode) :=
  (parameter? env notes e.1).bind fun p =>
    if owner? env x notes e = some i then
      some (p.1, if (env.tree.enclosingEvent? e.1).isSome then none else some p.2)
    else none

theorem recipient?_eq {x : UnitIndex} {notes : Annotations} {e : NodeId × Walk} (hs : Sound e.2)
    (reads : ReadsEvent env notes e.1 e.2) (ext : e.2.index.Extends x) :
    e.2.recipient? = owner? env x notes e ∧
      e.2.openEvent.isSome = (env.tree.enclosingEvent? e.1).isSome := by
  have around := ext.enclosingRoutine? hs.coherent.scopeTree e.2.scope hs.scope_lt
  have symbol := reads.symbol
  unfold recipient? owner?
  cases hevent : env.tree.enclosingEvent? e.1 with
  | none =>
    rw [hevent, Option.bind_none] at symbol
    rw [symbol, Option.none_or, around]
    exact ⟨rfl, rfl⟩
  | some event =>
    rw [hevent, Option.bind_some] at symbol
    cases hopen : e.2.openEvent with
    | none =>
      rw [reads.isNone hopen] at hevent
      cases hevent
    | some i => exact ⟨hopen.symm.trans symbol, rfl⟩

theorem addsTo_eq {x : UnitIndex} {notes : Annotations} {e : NodeId × Walk} (hs : Sound e.2)
    (reads : ReadsEvent env notes e.1 e.2) (ext : e.2.index.Extends x) (i : SymbolId) :
    addsTo env notes i e = listing env x notes i e := by
  obtain ⟨recipient, isEvent⟩ := recipient?_eq hs reads ext
  unfold addsTo listing listedMode
  rw [recipient, isEvent]

/-- A parameter goes to an event or to a routine. -/
theorem recipient?_found {x : UnitIndex} (hs : Sound w) (ext : w.index.Extends x) :
    ∃ i s, w.recipient? = some i ∧ x.symbols.get? i = some s ∧
      ((∃ r, s.kind = .routine r) ∨ ∃ ps, s.kind = .event ps) := by
  cases hopen : w.openEvent with
  | some event =>
    obtain ⟨s, ps, hget, kind⟩ := IsEvent.extends ext (hs.standing.event event hopen)
    exact ⟨event, s, by rw [recipient?, hopen]; rfl, hget, .inr ⟨ps, kind⟩⟩
  | none =>
    obtain ⟨i, body, found, isRoutine⟩ := hs.coherent.enclosingRoutine? hs.scope_lt
    obtain ⟨s, r, hget, kind, -⟩ := IsRoutine.extends ext isRoutine
    exact ⟨i, s, by rw [recipient?, hopen, Option.none_or, found], hget, .inl ⟨r, kind⟩⟩

end Visits

end Walk

namespace CompilationUnit

open Walk

variable {catalog : Catalog} {types : TypeRegistry} {options : Options}

/-- When an analysis succeeds, every node that it has entered is completed once, and the parameters
of a symbol are those that the nodes add, in the order in which they are completed. Every node that
stands for a parameter adds one, to the innermost event around it or else to the routine around the
scope in which it stands. -/
theorem analyze_parameters {u u' : CompilationUnit} {index : UnitIndex}
    (hok : u.analyze catalog types options = (.ok index, u')) :
    let env : Env := { tree := u.tree, catalog, types, options }
    let es := unitExits env u.notes
    es.Perm (unitEntries env u.notes) ∧ (es.map (·.1)).Nodup ∧
    (∀ i s, index.symbols.get? i = some s →
      s.parameterList = es.filterMap (listing env index u'.notes i)) ∧
    ∀ e ∈ es, StandsForParameter env.tree e.1 → ∃ p i s, parameter? env u'.notes e.1 = some p ∧
      owner? env index u'.notes e = some i ∧ index.symbols.get? i = some s ∧
      ((∃ r, s.kind = .routine r) ∨ ∃ ps, s.kind = .event ps) := by
  intro env es
  obtain ⟨w, hw, rfl, rfl⟩ := analyze_ok catalog types options hok
  have perm : es.Perm (unitEntries env u.notes) := visitUnit_exits_perm hw
  have collects : Collects env es (start env u.notes) w := visitUnit_collects hw
  have entered := ((ends_visitUnit env u.notes).ok hw).2
  -- what is known of each node since it was entered
  have known : ∀ e ∈ es, Sound e.2 ∧ ReadsEvent env w.notes e.1 e.2 ∧
      e.2.index.Extends w.index := by
    intro e he
    have mem := perm.mem_iff.1 he
    have hs := sound_of_mem_unitEntries mem
    obtain ⟨plan, v, henter⟩ := entered e mem
    have later := (visitUnit_settles hw e.1 e.2 plan v mem henter).1
    exact ⟨hs, visitUnit_readsEvent hw e mem,
      ((ends_enter env e.1 hs).ok henter).enters.extends.trans later⟩
  refine ⟨perm, (perm.map _).nodup_iff.2 (unitEntries_nodup _ _), fun i s hs => ?_,
    fun e he stands => ?_⟩
  · have begun : (start env u.notes).index.parametersOf i = [] := by
      cases h : (start env u.notes).index.symbols.get? i with
      | none => exact parametersOf_of_none h
      | some v =>
        obtain ⟨-, rfl⟩ := start_arena h
        exact parametersOf_of_get? h
    rw [← parametersOf_of_get? hs, collects.lists, begun, List.nil_append]
    refine List.filterMap_congr fun e he => ?_
    obtain ⟨sound, reads, ext⟩ := known e he
    exact addsTo_eq sound reads ext i
  · obtain ⟨sound, reads, ext⟩ := known e he
    obtain ⟨p, parameter⟩ := Option.isSome_iff_exists.1 (collects.served e he stands)
    obtain ⟨i, s, recipient, hget, kind⟩ := recipient?_found sound ext
    exact ⟨p, i, s, parameter, (recipient?_eq sound reads ext).1.symm.trans recipient, hget, kind⟩

/-- An event with a parameter, and a function with another in whose body a trigger has a third. -/
def parameterSample : ParseTree := .ofRows [
  (0, .defineEvent, ""), (1, .identifier, "e"), (1, .functionParameter, ""), (3, .identifier, "p"),
  (0, .functionStatement, ""), (5, .identifier, "f"), (5, .functionParameter, ""),
  (7, .identifier, "p"), (5, .onStatement, ""), (9, .defineParameter, ""), (10, .identifier, "q")]

/-- In the sample, the parameter of the event is in its signature, and the other two are parameters
of the function. -/
theorem analyze_parameters_trigger :
    ∃ index u event routine, (ofTree parameterSample).analyze {} {} {} = (.ok index, u) ∧
      index.symbols.get? ⟨1⟩ = some event ∧ index.symbols.get? ⟨3⟩ = some routine ∧
      let es := unitExits { tree := parameterSample } (.blank parameterSample.size)
      es.filterMap (listing { tree := parameterSample } index u.notes ⟨1⟩) = [(⟨2⟩, none)] ∧
      es.filterMap (listing { tree := parameterSample } index u.notes ⟨3⟩) =
        [(⟨4⟩, some .input), (⟨5⟩, some .input)] := by
  obtain ⟨index, hok, hevent, hroutine⟩ :=
    exists_analyze_ok_and (u := ofTree parameterSample) {} {} {}
      (P := fun x => (x.symbols.get? ⟨1⟩).map Symbol.parameterList = some [(⟨2⟩, none)] ∧
        (x.symbols.get? ⟨3⟩).map Symbol.parameterList =
          some [(⟨4⟩, some .input), (⟨5⟩, some .input)]) (by decide +kernel)
  generalize ((ofTree parameterSample).analyze {} {} {}).2 = u at hok
  obtain ⟨-, -, lists, -⟩ := analyze_parameters hok
  obtain ⟨event, hget, listed⟩ := Option.map_eq_some_iff.1 hevent
  obtain ⟨routine, hget', listed'⟩ := Option.map_eq_some_iff.1 hroutine
  exact ⟨index, u, event, routine, hok, hget, hget', (lists ⟨1⟩ event hget).symm.trans listed,
    (lists ⟨3⟩ routine hget').symm.trans listed'⟩

end CompilationUnit

end AblResolve
