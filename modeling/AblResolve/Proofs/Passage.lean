import AblResolve.Proofs.Rounds
import AblResolve.Proofs.Settled
import AblResolve.Proofs.Settling
/-!
The passage of a walk. Its moments are the states in which a node is about to be entered or an
action about to be done; between one moment and the next there are only proper deeds, and at most
one symbol is attached. After a visit the same symbols are unsettled as before it.
-/
namespace AblResolve.Walk

open UnitIndex ParseTree

/-! ### Moments -/

/-- What `trace` lists from the state in which a computation ends, if it succeeds. -/
def trailing {β γ : Type} (m : WalkM β) (trace : Walk → List γ) (w : Walk) : List γ :=
  match m w with
  | .ok _ w' => trace w'
  | .error _ _ => []

theorem trailing_of_ok {β γ : Type} {m : WalkM β} {trace : Walk → List γ} {w w' : Walk} {b : β}
    (h : m w = .ok b w') : trailing m trace w = trace w' := by
  rw [trailing, h]

/-- The states before each of several actions, up to one that fails. -/
def actionMoments (env : Env) (actions : List Action) (w : Walk) : List Walk :=
  collect (perform env) (fun _ w => [w]) actions w

/-- The states in which a visit is about to enter a node or to do an action. -/
def moments (env : Env) (n : NodeId) (w : Walk) : List Walk :=
  w :: match enter env n w with
    | .ok plan v =>
      collect (fun step => step.run env (visit env step.child.val))
        (fun step => trailing (prepare env step) fun w =>
          actionMoments env step.before w ++ trailing (performAll env step.before) (fun w =>
            moments env step.child.val w ++
              trailing (visit env step.child.val) (actionMoments env step.after) w) w)
        plan.steps v ++
      trailing (plan.steps.forM fun step => step.run env (visit env step.child.val))
        (actionMoments env plan.leave) v
    | .error _ _ => []
termination_by env.tree.size - n.val
decreasing_by exact step.child.size_sub_lt

/-- The moments of one step. -/
def Step.moments (env : Env) {n : NodeId} (step : Step env.tree n) : Walk → List Walk :=
  trailing (prepare env step) fun w =>
    actionMoments env step.before w ++ trailing (performAll env step.before) (fun w =>
      Walk.moments env step.child.val w ++
        trailing (visit env step.child.val) (actionMoments env step.after) w) w

/-- The moments of several steps. -/
def stepsMoments (env : Env) {n : NodeId} (steps : List (Step env.tree n)) (w : Walk) : List Walk :=
  collect (fun step => step.run env (visit env step.child.val)) (Step.moments env) steps w

/-- The moments of a walk over the unit. -/
def unitMoments (env : Env) (notes : Annotations) : List Walk :=
  stepsMoments env (unitSteps env) (start env notes)

/-! ### Passages -/

/-- The symbols that deeds attach. -/
def attachments (ds : List Deed) : List SymbolId :=
  ds.filterMap fun d => match d with
    | .attach s => some s
    | _ => none

/-- The walk passes through the moments `ms`. -/
inductive Passage (env : Env) : Walk → List Walk → Walk → Prop
  | calm {w w' : Walk} (calm : Calm .all w w') : Passage env w [] w'
  | moment {w w₁ w₂ w' : Walk} {ds : List Deed} {ms : List Walk} (calm : Calm .all w w₁)
      (sound : Sound w₁) (properly : Properly env w₁ ds w₂) (single : (attachments ds).length ≤ 1)
      (rest : Passage env w₂ ms w') : Passage env w (w₁ :: ms) w'

section Passage

variable {env : Env} {w w' w'' : Walk} {ms ms' : List Walk} {ds : List Deed}

theorem Passage.after_calm (calm : Calm .all w w') (h : Passage env w' ms w'') :
    Passage env w ms w'' := by
  cases h with
  | calm rest => exact .calm (calm.trans rest)
  | moment before sound properly single rest =>
    exact .moment (calm.trans before) sound properly single rest

theorem Passage.append (h : Passage env w ms w') (k : Passage env w' ms' w'') :
    Passage env w (ms ++ ms') w'' := by
  induction h with
  | calm calm => exact k.after_calm calm
  | moment before sound properly single _ ih =>
    exact .moment before sound properly single (ih k)

theorem Passage.single (sound : Sound w) (properly : Properly env w ds w')
    (single : (attachments ds).length ≤ 1) : Passage env w [w] w' :=
  .moment (.refl _ w) sound properly single (.calm (.refl _ w'))

end Passage

/-! ### What nodes and actions handle -/

section Handling

variable {env : Env} {n : NodeId} {w w' : Walk} {ds : List Deed} {owes : List SymbolId}
  {o : Option (SymbolId × Namespace)} {U : SymbolId → Prop} {a : Action}

/-- The symbol in hand, as a list. -/
def inHand (o : Option (SymbolId × Namespace)) : List SymbolId := (o.map (·.1)).toList

/-- What entering a node leaves in hand is what its plan owes. -/
theorem Entering.handles (h : Entering env n ds owes) :
    ∃ o, Handles none ds o ∧ inHand o = owes ∧
      (StandsForParameter env.tree n → ∀ s space, o = some (s, space) → space = .variable) := by
  have loads : ∀ {ds}, Loading ds → Handles none ds none := by
    intro ds loading
    cases loading with
    | nothing => exact .nil none
    | load e => exact .aside rfl (.nil none)
  cases h with
  | nothing => exact ⟨none, .nil none, rfl, nofun⟩
  | opens s parameter =>
    refine ⟨some (s, _), .make (.nil _), rfl, fun stands _ _ ho => ?_⟩
    cases ho
    exact parameter stands
  | defines s space => exact ⟨none, .make (.attach (.nil none)), rfl, nofun⟩
  | event kind s =>
    refine ⟨some (s, .event), .make (.aside rfl (.nil _)), rfl, fun stands => ?_⟩
    exact absurd stands (not_standsForParameter (by rw [kind]; rfl))
  | announces kind key s =>
    exact ⟨none, .make (.attach (.aside rfl (.nil none))), rfl, nofun⟩
  | function kind key s => exact ⟨none, .aside rfl (.make (.attach (.nil none))), rfl, nofun⟩
  | resumes kind key s => exact ⟨none, .aside rfl (.aside rfl (.nil none)), rfl, nofun⟩
  | refers kind e => exact ⟨none, loads (.load e), rfl, nofun⟩
  | «inline» kind s loading => exact ⟨none, .make (.attach (loads loading)), rfl, nofun⟩

theorem Entering.signs_none (h : Entering env n ds owes) (event s : SymbolId) :
    .sign event s ∉ ds := by
  cases h with
  | «inline» kind s loading => cases loading <;> simp
  | _ => simp

theorem Entering.single (h : Entering env n ds owes) : (attachments ds).length ≤ 1 := by
  cases h with
  | «inline» kind s loading => cases loading <;> simp [attachments]
  | _ => simp [attachments]

/-- What an action needs of the symbol in hand. A buffer that is a table parameter is no such
symbol. -/
def Action.fits (o : Option (SymbolId × Namespace)) : Action → Prop
  | .attach s => ∃ space, o = some (s, space)
  | .addParameter s _ => o = some (s, .variable)
  | .defineBuffer .. | .addBufferParameter .. => o = none
  | .addTableParameter .. => False
  | _ => True

/-- What is in hand after an action. -/
def Action.leaves (o : Option (SymbolId × Namespace)) (a : Action) :
    Option (SymbolId × Namespace) :=
  if a.owes = [] then o else none

theorem Joins.handles {s : SymbolId} {mode : ParameterMode} {space : Namespace}
    (h : Joins w s mode true ds) (fits : space = .variable ∨ space = .buffer) :
    Handles (some (s, space)) ds none := by
  cases h with
  | event => exact .sign fits (.nil none)
  | routine => exact .attach (.aside rfl (.nil none))

theorem Joins.signs {s : SymbolId} {mode : ParameterMode} {attaching : Bool}
    (h : Joins w s mode attaching ds) (hs : Sound w) :
    ∀ event p, .sign event p ∈ ds → w.index.HasSpace event .event := by
  intro event p hmem
  cases h with
  | event reading =>
    cases List.mem_singleton.1 hmem
    exact isEvent_iff.1 (hs.standing.event _ reading)
  | routine => cases attaching <;> simp at hmem

theorem Joins.single {s : SymbolId} {mode : ParameterMode} {attaching : Bool}
    (h : Joins w s mode attaching ds) : (attachments ds).length ≤ 1 := by
  cases h with
  | event => simp [attachments]
  | routine => cases attaching <;> simp [attachments]

theorem Acting.handles (h : Acting w w' a ds) (fits : a.fits o) : Handles o ds (a.leaves o) := by
  cases h with
  | idle idle => rw [Action.leaves, if_pos (Action.owes_of_isIdle idle)]; exact .nil o
  | attach s =>
    obtain ⟨space, rfl⟩ := fits
    exact .attach (.nil none)
  | closeEvent outer => exact .aside rfl (.nil o)
  | addParameter joins =>
    obtain rfl := fits
    exact joins.handles (.inl rfl)
  | defineBuffer d record s =>
    obtain rfl := fits
    exact .make (.attach (.nil none))
  | addBufferParameter noted joins =>
    obtain rfl := fits
    exact .make (joins.handles (.inr rfl))
  | addTableParameter => exact fits.elim

theorem Acting.signs (h : Acting w w' a ds) (hs : Sound w) :
    ∀ event s, .sign event s ∈ ds → w.index.HasSpace event .event := by
  intro event s hmem
  cases h with
  | idle | attach | closeEvent | defineBuffer => simp at hmem
  | addParameter joins | addTableParameter _ _ joins => exact joins.signs hs event s hmem
  | addBufferParameter noted joins =>
    refine joins.signs hs event s (List.mem_of_ne_of_mem ?_ hmem)
    rintro ⟨⟩

theorem Acting.single (h : Acting w w' a ds) : (attachments ds).length ≤ 1 := by
  cases h with
  | idle | attach | closeEvent | defineBuffer => simp [attachments]
  | addParameter joins | addTableParameter _ _ joins => exact joins.single
  | addBufferParameter noted joins => exact joins.single

theorem Licence.log_all {l : Licence} (log : Log env l w ds w') : Log env .all w ds w' :=
  log.mono (fun _ _ => trivial) fun _ => trivial

/-- An action that fits what is in hand. -/
theorem perform_handled (hs : Sound w) (hok : perform env a w = .ok () w') (fits : a.fits o)
    (hand : InHand U w.index o) :
    Passage env w [w] w' ∧ InHand U w'.index (a.leaves o) := by
  obtain ⟨ds, log, acting⟩ := perform_log hok
  obtain ⟨properly, hand'⟩ :=
    (acting.handles fits).properly (Licence.log_all log) hand (acting.signs hs)
  exact ⟨.single hs properly acting.single, hand'⟩

/-- Signing a symbol that is attached settles nothing. -/
theorem InHand.signAttached {event b : SymbolId} (h : InHand U w.index o)
    (effect : Effect env w (.sign event b) w') (isEvent : w.index.IsEvent event)
    (found : w.index.HasSpace b .table) (settled : ¬ w.index.IsPending b) :
    InHand U w'.index o := by
  obtain ⟨s, hget, -⟩ := found
  have spaces := fun i space ho => (h.apart i space ho).imp_right effect.hasSpace
  cases effect with
  | sign =>
    refine ⟨listed_withSigned isEvent h.listed ⟨s, hget⟩, fun i => ?_, spaces⟩
    rw [← h.unsettled]
    constructor
    · intro u
      exact ⟨isPending_withSigned.1 u.pending,
        fun parameter => u.free ((isEventParameter_withSigned isEvent).2 (.inl parameter))⟩
    · intro u
      refine ⟨isPending_withSigned.2 u.pending, fun parameter => ?_⟩
      rcases (isEventParameter_withSigned isEvent).1 parameter with parameter | rfl
      · exact u.free parameter
      · exact settled u.pending

/-- A default buffer that becomes a parameter has been attached before. -/
theorem addTableParameter_handled {r : NodeId} {mode : ParameterMode} {b : SymbolId}
    (hs : Sound w) (hok : perform env (.addTableParameter r mode) w = .ok () w')
    (symbol : (w.notes.get r).symbol = some b) (isDefault : w.index.HasSpace b .table)
    (hand : InHand U w.index o) :
    Passage env w [w] w' ∧ InHand U w'.index o := by
  obtain ⟨ds, log, acting⟩ := perform_log hok
  have all := Licence.log_all log
  cases acting with
  | idle idle => cases idle
  | addTableParameter found attached joins =>
    rw [symbol] at found
    cases found
    have settled : ¬ w.index.IsPending b := by
      rintro ⟨s, hget, pending⟩
      obtain ⟨s', hget', attached⟩ := attached
      rw [hget] at hget'
      cases hget'
      rw [pending] at attached
      cases attached
    have single := joins.single
    cases joins with
    | routine free around =>
      obtain ⟨properly, hand⟩ := (Handles.aside rfl (.nil o)).properly all hand (by simp)
      exact ⟨.single hs properly single, hand⟩
    | event reading =>
      rename_i event
      cases all with
      | deed before effect rest =>
        have isEvent := isEvent_iff.2 (before.hasSpace
          (isEvent_iff.1 (hs.standing.event event reading)))
        have settled₁ := mt before.settledAlike.pending.1 settled
        have proper : Proper _ (.sign event b) :=
          ⟨isEvent, .table, before.hasSpace isDefault, .inr ⟨settled₁, rfl⟩⟩
        have calm := Log.nil_iff.1 rest
        refine ⟨.single hs (.deed before proper effect (.calm calm)) single, ?_⟩
        exact ((hand.calm before).signAttached effect isEvent (before.hasSpace isDefault)
          settled₁).calm calm

end Handling

/-! ### Visits -/

section Visits

variable {env : Env} {n : NodeId} {w₀ w w' : Walk} {o : Option (SymbolId × Namespace)}
  {U : SymbolId → Prop} {owes : List SymbolId}

theorem hasSpace_extends {x y : UnitIndex} (ext : x.Extends y) {i : SymbolId} {space : Namespace}
    (h : x.HasSpace i space) : y.HasSpace i space := by
  obtain ⟨symbol, hs, hspace⟩ := h
  obtain ⟨symbol', hs', -, hspace'⟩ : y.Names symbol.scope space i :=
    Names.extends ext ⟨symbol, hs, rfl, hspace⟩
  exact ⟨symbol', hs', hspace'⟩

/-- The same symbols are unsettled before and after, and the moments in between are those listed. -/
structure Passes (env : Env) (ms : List Walk) (w w' : Walk) : Prop where
  listed : w'.index.Listed
  unsettled : ∀ i, w'.index.Unsettled i ↔ w.index.Unsettled i
  passage : Passage env w ms w'

theorem InHand.passes {ms : List Walk} (h : InHand U w.index o) (passes : Passes env ms w w')
    (ext : w.index.Extends w'.index) : InHand U w'.index o where
  listed := passes.listed
  unsettled i := (passes.unsettled i).trans (h.unsettled i)
  apart i space ho := (h.apart i space ho).imp_right (hasSpace_extends ext)

/-- A plain action fits what is in hand if it is owed. -/
theorem Action.fits_of_isPlain {a : Action} (plain : a.isPlain) (h : inHand o = a.owes ++ owes) :
    a.fits o ∧ inHand (a.leaves o) = owes ∧ (a.leaves o = o ∨ a.leaves o = none) := by
  have idle : a.isIdle → a.fits o ∧ inHand (a.leaves o) = owes ∧
      (a.leaves o = o ∨ a.leaves o = none) := by
    intro idle
    have none := Action.owes_of_isIdle idle
    rw [Action.leaves, if_pos none]
    refine ⟨?_, by simpa [none] using h, .inl rfl⟩
    cases a <;> trivial
  cases a with
  | attach s =>
    obtain ⟨⟨s', space⟩, rfl⟩ : ∃ p, o = some p := by
      cases o with
      | none => cases h
      | some p => exact ⟨p, rfl⟩
    cases h
    exact ⟨⟨space, rfl⟩, rfl, .inr rfl⟩
  | _ => exact idle plain

theorem actionMoments_cons {a : Action} {as : List Action} (h : perform env a w = .ok () w') :
    actionMoments env (a :: as) w = w :: actionMoments env as w' :=
  collect_of_ok h

/-- Plain actions put down what they owe. -/
theorem Done.passage {as : List Action} (h : Done env n w as w') (plain : ∀ a ∈ as, a.isPlain)
    (hand : InHand U w.index o) (owed : inHand o = as.flatMap Action.owes ++ owes) :
    Passage env w (actionMoments env as w) w' ∧
      ∃ o', InHand U w'.index o' ∧ inHand o' = owes ∧ (o' = o ∨ o' = none) := by
  induction h generalizing o with
  | nil w => exact ⟨.calm (.refl _ w), o, hand, owed, .inl rfl⟩
  | cons sound ok performs act rest ih =>
    rw [List.flatMap_cons, List.append_assoc] at owed
    obtain ⟨fits, owed, same⟩ := Action.fits_of_isPlain (plain _ List.mem_cons_self) owed
    obtain ⟨first, hand⟩ := perform_handled sound ok fits hand
    obtain ⟨later, o', hand', owed', same'⟩ :=
      ih (fun a ha => plain a (List.mem_cons_of_mem _ ha)) hand owed
    rw [actionMoments_cons ok]
    refine ⟨first.append later, o', hand', owed', ?_⟩
    rcases same' with rfl | rfl
    · exact same
    · exact .inr rfl

theorem prepare_passage {step : Step env.tree n} (h : prepare env step w = .ok () w')
    (hand : InHand U w.index o) : Calm .all w w' ∧ InHand U w'.index o := by
  have calm := Calmly.prepare (l := .all) step w () w' h
  exact ⟨calm, hand.calm calm⟩

theorem stepsMoments_cons {step : Step env.tree n} {rest : List (Step env.tree n)}
    {w₁ w₂ w₃ w₄ : Walk} (prepared : prepare env step w = .ok () w₁)
    (before : Done env n w₁ step.before w₂)
    (visit : visit env step.child.val w₂ = .ok () w₃)
    (run : step.run env (Walk.visit env step.child.val) w = .ok () w₄) :
    stepsMoments env (step :: rest) w = actionMoments env step.before w₁ ++
      (moments env step.child.val w₂ ++ actionMoments env step.after w₃) ++
        stepsMoments env rest w₄ := by
  rw [stepsMoments, collect_of_ok
    (f := fun step : Step env.tree n => step.run env (Walk.visit env step.child.val)) run,
    Step.moments, trailing_of_ok prepared,
    trailing_of_ok before.performAll_ok, trailing_of_ok visit]
  rfl

/-- What the visit of a child does besides, given that the parameters of events are symbols. -/
def Passing (env : Env) (c : NodeId) (v v' : Walk) : Prop :=
  v.index.Listed → Passes env (moments env c v) v v'

/-- The steps of a plan put down what they owe. -/
theorem Rounds.passage {steps : List (Step env.tree n)}
    (h : Rounds env n w₀ (Passing env) steps w w')
    (plain : ∀ s ∈ steps, ∀ a ∈ s.before ++ s.after, a.isPlain) (hand : InHand U w.index o)
    (owed : inHand o = steps.flatMap Step.owes ++ owes) :
    Passage env w (stepsMoments env steps w) w' ∧
      ∃ o', InHand U w'.index o' ∧ inHand o' = owes ∧ (o' = o ∨ o' = none) := by
  induction h generalizing o with
  | nil w => exact ⟨.calm (.refl _ w), o, hand, owed, .inl rfl⟩
  | @cons step rest w w₁ w₂ w₃ w₄ w' sound prepared tells before began visit visited child after
      once run others ih =>
    have own := plain _ List.mem_cons_self
    rw [List.flatMap_cons, Step.owes, List.flatMap_append, List.append_assoc,
      List.append_assoc] at owed
    obtain ⟨calm, hand⟩ := prepare_passage prepared hand
    obtain ⟨p₁, o₁, hand, owed, same₁⟩ :=
      before.passage (fun a ha => own a (List.mem_append_left _ ha)) hand owed
    have passes := child hand.listed
    obtain ⟨p₂, o₂, hand, owed, same₂⟩ :=
      after.passage (fun a ha => own a (List.mem_append_right _ ha))
        (hand.passes passes visited.ext) owed
    obtain ⟨p₃, o', hand, owed, same₃⟩ :=
      ih (fun s hs => plain s (List.mem_cons_of_mem _ hs)) hand owed
    rw [stepsMoments_cons prepared before visit run]
    refine ⟨((p₁.append (passes.passage.append p₂)).append p₃).after_calm calm, o', hand, owed, ?_⟩
    rcases same₃ with rfl | rfl
    · rcases same₂ with rfl | rfl
      · exact same₁
      · exact .inr rfl
    · exact .inr rfl

/-! ### Temp-tables as parameters -/

theorem enter_tableParameter (h : env.tree.kind n = .tableParameter) :
    enter env n = enterTableParameter env n := by
  simp only [enter, h]

/-- A record that is looked up among the tables of the unit stands for a default buffer. -/
theorem visit_tempTable (hs : Sound w) (kind : env.tree.kind n = .record)
    (asked : w.qualifierAt n = .tempTableSymbol) (hok : visit env n w = .ok () w') :
    ∃ b, (w'.notes.get n).symbol = some b ∧ w'.index.HasSpace b .table := by
  have settles := visit_settles env n hs hok
  rw [visit] at hok
  obtain ⟨plan, v, henter, -⟩ := bind_ok.1 hok
  obtain ⟨ext, kept⟩ := settles n w plan v (by rw [entries]; exact List.mem_cons_self) henter
  rw [enter_record kind] at henter
  obtain ⟨b, q, v₀, w₁, htake, hfind, calm, hsymbol, -⟩ := enterRecord_ok henter
  obtain ⟨rfl, qualifiers, defaulted, rfl⟩ := takeQualifier_ok htake
  rw [asked] at hfind
  obtain ⟨x, w₂, hx, hpure⟩ := bind_ok.1 hfind
  cases hx
  have found : w.index.findIn? rootScope .table (env.tree.text n) = some b := by
    injection hpure
  have same : w₁.index = { w.index with defaulted } := by
    injection hpure with _ h
    rw [← h]
  obtain ⟨symbol, hget, -, hspace⟩ := hs.coherent.names_of_findIn? found
  have isDefault : w₁.index.HasSpace b .table := ⟨symbol, by rw [same]; exact hget, hspace⟩
  refine ⟨b, ?_, hasSpace_extends ext (calm.hasSpace isDefault)⟩
  have own : (w'.notes.get n).symbol = (v.notes.get n).symbol :=
    congrArg (·.1) (kept n (.of_record kind))
  rw [own, hsymbol]

section Bare

variable {steps : List (Step env.tree n)} {Child : NodeId → Walk → Walk → Prop}
  (bare : ∀ s ∈ steps, s.before = [] ∧ s.after = [])
include bare

/-- Steps around which nothing is done write only below their children. -/
theorem Rounds.bare_apart (h : Rounds env n w₀ Child steps w w') {m : NodeId}
    (apart : ∀ c ∈ targets steps, ¬ env.tree.Within c m) : w'.notes.get m = w.notes.get m := by
  induction h with
  | nil => rfl
  | cons sound prepared tells before began visit visited child after once run others ih =>
    obtain ⟨hbefore, hafter⟩ := bare _ List.mem_cons_self
    rw [hbefore] at before
    cases before
    rw [hafter] at after
    cases after
    have later := ih (fun s hs => bare s (List.mem_cons_of_mem _ hs))
      fun c hc => apart c (List.mem_cons_of_mem _ hc)
    obtain ⟨qualifiers, hints, rfl⟩ := tells.eq
    rw [later, visited.apart _ (apart _ List.mem_cons_self)]

/-- What is written on a child when it is visited among such steps stays. -/
theorem Rounds.bare_child (h : Rounds env n w₀ Child steps w w') {step : Step env.tree n}
    (mem : step ∈ steps) :
    ∃ v v₁ v₂, prepare env step v = .ok () v₁ ∧ Sound v₁ ∧
      visit env step.child.val v₁ = .ok () v₂ ∧ v₂.index.Extends w'.index ∧
      w'.notes.get step.child.val = v₂.notes.get step.child.val := by
  induction h with
  | nil => cases mem
  | cons sound prepared tells before began visit visited child after once run others ih =>
    obtain ⟨hbefore, hafter⟩ := bare _ List.mem_cons_self
    have bare' := fun s hs => bare s (List.mem_cons_of_mem _ hs)
    rcases List.mem_cons.1 mem with rfl | mem
    · rw [hbefore] at before
      cases before
      rw [hafter] at after
      cases after
      refine ⟨_, _, _, prepared, began.sound, visit, others.extends, others.bare_apart bare' ?_⟩
      intro c hc hwithin
      obtain ⟨s, -, rfl⟩ := List.mem_map.1 hc
      refine hwithin.of_child_ne s.child.property step.child.property ?_
      rintro heq
      exact once (heq ▸ hc)
    · exact ih bare' mem

end Bare

theorem prepare_qualifier {step : Step env.tree n} {q : Qualifier}
    (hq : step.qualifier = some q) (asks : (env.tree.kind step.child.val).consumesQualifier)
    (hok : prepare env step w = .ok () w') : w'.qualifierAt step.child.val = q := by
  have qualified : ∀ {v v' : Walk} {u : Unit}, qualify env step.child.val q v = .ok u v' →
      v'.qualifierAt step.child.val = q := by
    intro v v' u h
    unfold qualify at h
    rw [if_pos asks] at h
    cases h
    simp [qualifierAt]
  unfold prepare at hok
  rw [hq] at hok
  cases hhint : step.hint with
  | none =>
    rw [hhint] at hok
    obtain ⟨_, w₁, hqualify, hpure⟩ := bind_ok.1 hok
    cases hpure
    exact qualified hqualify
  | some h =>
    rw [hhint] at hok
    obtain ⟨_, w₁, hqualify, hhint'⟩ := bind_ok.1 hok
    cases hhint'
    show w₁.qualifierAt _ = q
    exact qualified hqualify

/-- The record that names a temp-table parameter stands for a default buffer at the end. -/
theorem Rounds.tempTable {plan : Plan env.tree n} {v : Walk}
    {Child : NodeId → Walk → Walk → Prop} (kind : env.tree.kind n = .tableParameter)
    {r : NodeId} (first : env.tree.childOfKind? n .record = some r)
    (henter : enter env n w₀ = .ok plan v) (h : Rounds env n w₀ Child plan.steps v w') :
    ∃ b, (w'.notes.get r).symbol = some b ∧ w'.index.HasSpace b .table := by
  rw [enter_tableParameter kind] at henter
  cases henter
  have record : env.tree.kind r = .record := by simpa using List.find?_some first
  let child : env.tree.Child n := ⟨r, List.mem_of_find?_eq_some first⟩
  let step : Step env.tree n := { child, qualifier := some .tempTableSymbol }
  have mem : step ∈ firstSteps env.tree n .record .tempTableSymbol := by
    refine List.mem_map.2 ⟨child, List.mem_attach _ _, ?_⟩
    simp [step, child, first]
  have bare : ∀ s ∈ firstSteps env.tree n .record .tempTableSymbol,
      s.before = [] ∧ s.after = [] := by
    intro s hs
    obtain ⟨c, -, rfl⟩ := List.mem_map.1 hs
    exact ⟨rfl, rfl⟩
  obtain ⟨v₀, v₁, v₂, prepared, hs, hvisit, ext, same⟩ := h.bare_child bare mem
  have told : step.qualifier = some .tempTableSymbol := rfl
  have asked := prepare_qualifier told (by simp [step, child, record]) prepared
  obtain ⟨b, symbol, isDefault⟩ := visit_tempTable hs record asked hvisit
  exact ⟨b, by rw [← symbol]; exact congrArg Annotation.symbol same, hasSpace_extends ext isDefault⟩

/-- Plain actions put down what they owe. -/
theorem Done.empties {as : List Action} (done : Done env n w as w')
    (plain : ∀ a ∈ as, a.isPlain) (hand : InHand U w.index o)
    (owed : inHand o = as.flatMap Action.owes) :
    Passage env w (actionMoments env as w) w' ∧ InHand U w'.index none := by
  obtain ⟨passage, o', hand, owed, -⟩ :=
    done.passage plain hand (owed.trans (List.append_nil _).symm)
  cases o' with
  | none => exact ⟨passage, hand⟩
  | some p => cases owed

/-- An action is at work in the state in which it begins. -/
theorem Done.handled {a : Action} (done : Done env n w [a] w') (fits : a.fits o)
    (hand : InHand U w.index o) :
    Passage env w (actionMoments env [a] w) w' ∧ InHand U w'.index (a.leaves o) := by
  obtain ⟨sound, ok, -⟩ := done.single
  rw [actionMoments_cons ok]
  exact perform_handled sound ok fits hand

theorem actionMoments_uncons {a : Action} {as : List Action} (first : Done env n w [a] w') :
    actionMoments env (a :: as) w = actionMoments env [a] w ++ actionMoments env as w' := by
  obtain ⟨-, ok, -⟩ := first.single
  rw [actionMoments_cons ok, actionMoments_cons ok]
  rfl

theorem eq_none_of_inHand (h : inHand o = []) : o = none := by
  cases o with
  | none => rfl
  | some p => cases h

/-- What is done at the end of a node puts down what is still in hand. -/
theorem Leaving.passage {leave : List Action} (h : Leaving env n leave)
    (done : Done env n w leave w') (hand : InHand U w.index o)
    (owed : inHand o = leave.flatMap Action.owes)
    (stands : StandsForParameter env.tree n → ∀ s space, o = some (s, space) → space = .variable)
    (tempTable : env.tree.kind n = .tableParameter → ∀ r,
      env.tree.childOfKind? n .record = some r →
        ∃ b, (w.notes.get r).symbol = some b ∧ w.index.HasSpace b .table) :
    Passage env w (actionMoments env leave w) w' ∧ InHand U w'.index none := by
  cases h with
  | plain plain => exact done.empties plain hand owed
  | event kind outer s =>
    obtain ⟨v, closes, rest⟩ := done.uncons
    obtain ⟨first, hand⟩ := closes.handled trivial hand
    obtain ⟨later, hand⟩ := rest.empties (by simp [Action.isPlain, Action.isIdle]) hand owed
    rw [actionMoments_uncons closes]
    exact ⟨first.append later, hand⟩
  | buffer kind record =>
    obtain rfl := eq_none_of_inHand owed
    exact done.handled rfl hand
  | bufferParameter kind record =>
    obtain rfl := eq_none_of_inHand owed
    exact done.handled rfl hand
  | parameter kind s =>
    have isParameter : StandsForParameter env.tree n := by
      rcases kind with kind | kind <;> simp [StandsForParameter, kind]
    obtain ⟨space, rfl⟩ : ∃ space, o = some (s, space) := by
      cases o with
      | none => cases owed
      | some p =>
        cases owed
        exact ⟨p.2, rfl⟩
    obtain rfl := stands isParameter s space rfl
    obtain ⟨v, closes, adds⟩ := done.uncons
    obtain ⟨first, hand⟩ := closes.handled trivial hand
    obtain ⟨later, hand⟩ := adds.handled rfl hand
    rw [actionMoments_uncons closes]
    exact ⟨first.append later, hand⟩
  | tableParameter kind first =>
    obtain rfl := eq_none_of_inHand owed
    obtain ⟨b, symbol, isDefault⟩ := tempTable kind _ first
    obtain ⟨sound, ok, -⟩ := done.single
    rw [actionMoments_cons ok]
    exact addTableParameter_handled sound ok symbol isDefault hand

theorem moments_of_ok {plan : Plan env.tree n} {v v' : Walk} {Child : NodeId → Walk → Walk → Prop}
    (henter : enter env n w = .ok plan v) (rounds : Rounds env n w₀ Child plan.steps v v') :
    moments env n w =
      w :: (stepsMoments env plan.steps v ++ actionMoments env plan.leave v') := by
  rw [moments, henter]
  dsimp only
  rw [trailing_of_ok rounds.forM_ok]
  rfl

theorem visit_passes (env : Env) (n : NodeId) {w w' : Walk} (hs : Sound w)
    (hok : visit env n w = .ok () w') (listed : w.index.Listed) :
    Passes env (moments env n w) w w' := by
  refine visit_rounds (P := Passing env) ?_ n hs hok listed
  intro n w plan v v' w' hs henter admitted rounds done visited listed
  have hand : InHand w.index.Unsettled w.index none := ⟨listed, by simp, nofun⟩
  obtain ⟨ds, log, begins⟩ := enter_begins hs henter
  obtain ⟨o, handles, owed, stands⟩ := begins.entering.handles
  obtain ⟨properly, hand⟩ := handles.properly (Licence.log_all log) hand fun e s hmem =>
    absurd hmem (begins.entering.signs_none e s)
  have entered := Passage.single hs properly begins.entering.single
  obtain ⟨course, o', hand, owed', same⟩ := rounds.passage begins.steps hand owed
  have stands' : StandsForParameter env.tree n → ∀ s space, o' = some (s, space) →
      space = .variable := by
    rcases same with rfl | rfl
    · exact stands
    · exact fun _ => nofun
  obtain ⟨last, hand⟩ := begins.leaving.passage done hand owed' stands' fun kind r first =>
    rounds.tempTable kind first henter
  rw [moments_of_ok henter rounds]
  exact ⟨hand.listed, fun i => by rw [hand.unsettled]; simp, entered.append (course.append last)⟩

theorem listed_start (notes : Annotations) : (start env notes).index.Listed := by
  rintro i ⟨e, s, hs, mem⟩
  obtain ⟨-, rfl⟩ := start_arena hs
  simp [Symbol.signature, Symbol.asEvent?] at mem

/-- When a walk over the unit succeeds, every symbol is settled. -/
theorem visitUnit_passes {notes : Annotations}
    (hok : visitUnit env (start env notes) = .ok () w) :
    Passage env (start env notes) (unitMoments env notes) w ∧ ∀ i, ¬ w.index.Unsettled i := by
  have rounds : Rounds env root _ (Passing env) (unitSteps env) _ w :=
    visitUnit_rounds (fun c _ v v' hs hok => visit_passes env c hs hok) hok
  have settled : ∀ i, ¬ (start env notes).index.Unsettled i := by
    rintro i ⟨⟨s, hs, pending⟩, -⟩
    obtain ⟨-, rfl⟩ := start_arena hs
    cases pending
  have hand : InHand (fun _ => False) (start env notes).index none :=
    ⟨listed_start notes, by simpa using settled, nofun⟩
  have plain : ∀ s ∈ unitSteps env, ∀ a ∈ s.before ++ s.after, a.isPlain := by
    intro s hs a ha
    obtain ⟨c, -, rfl⟩ := List.mem_map.1 hs
    cases ha
  have owes : (unitSteps env).flatMap Step.owes = [] :=
    List.flatMap_eq_nil_iff.2 fun s hs => (idle_plainSteps s hs).owes
  have owed : inHand none = (unitSteps env).flatMap Step.owes ++ [] := by rw [owes]; rfl
  obtain ⟨passage, o', hand, -, same⟩ := rounds.passage plain hand owed
  refine ⟨passage, fun i u => ?_⟩
  rcases same with rfl | rfl <;> simpa using (hand.unsettled i).1 u

end Visits

/-! ### Entries among the moments -/

section Entries

variable {env : Env} {n : NodeId} {w₀ w w' : Walk}

theorem Rounds.entries_subset {steps : List (Step env.tree n)}
    (h : Rounds env n w₀ (fun c v _ => (entries env c v).map (·.2) ⊆ moments env c v) steps w w') :
    (stepsEntries env steps w).map (·.2) ⊆ stepsMoments env steps w := by
  induction h with
  | nil => simp [stepsEntries, collect]
  | cons sound prepared tells before began visit visited child after once run others ih =>
    rw [stepsMoments_cons prepared before visit run, stepsEntries_of_ok run,
      Step.entries_of_done prepared before, List.map_append]
    refine List.append_subset.2 ⟨fun v hv => ?_, fun v hv => List.mem_append_right _ (ih hv)⟩
    exact List.mem_append_left _ (List.mem_append_right _ (List.mem_append_left _ (child hv)))

/-- The states in which nodes are entered are moments of the visit. -/
theorem visit_entries_subset (n : NodeId) (hs : Sound w) (hok : visit env n w = .ok () w') :
    (entries env n w).map (·.2) ⊆ moments env n w := by
  refine visit_rounds (P := fun c v _ => (entries env c v).map (·.2) ⊆ moments env c v) ?_ n hs hok
  intro n w plan v v' w' hs henter admitted rounds done visited
  rw [moments_of_ok henter rounds, entries_of_ok henter, List.map_cons]
  exact List.cons_subset_cons _ fun u hu => List.mem_append_left _ (rounds.entries_subset hu)

theorem visitUnit_entries_subset {notes : Annotations}
    (hok : visitUnit env (start env notes) = .ok () w) :
    (unitEntries env notes).map (·.2) ⊆ unitMoments env notes :=
  (visitUnit_rounds (fun c _ _ _ hs hok => visit_entries_subset c hs hok) hok).entries_subset

end Entries

/-! ### What lasts -/

section Later

variable {env : Env} {n : NodeId} {w₀ w w' : Walk}

/-- What is there when a node is about to be visited or an action about to be done stays until the
end of the visit. -/
def Lasting (env : Env) (c : NodeId) (w w' : Walk) : Prop :=
  ∀ v ∈ moments env c w, v.index.Extends w'.index

theorem Done.lasting {as : List Action} (h : Done env n w as w') :
    ∀ v ∈ actionMoments env as w, v.index.Extends w'.index := by
  induction h with
  | nil => simp [actionMoments, collect]
  | cons sound ok performs act rest ih =>
    rw [actionMoments_cons ok]
    intro v hv
    rcases List.mem_cons.1 hv with rfl | hv
    · exact performs.isLocal.ext.trans rest.isLocal.ext
    · exact ih v hv

theorem Rounds.lasting {steps : List (Step env.tree n)}
    (h : Rounds env n w₀ (Lasting env) steps w w') :
    ∀ v ∈ stepsMoments env steps w, v.index.Extends w'.index := by
  induction h with
  | nil => simp [stepsMoments, collect]
  | cons sound prepared tells before began visit visited child after once run others ih =>
    have rest := others.extends
    have ends := after.isLocal.ext.trans rest
    rw [stepsMoments_cons prepared before visit run]
    intro v hv
    simp only [List.mem_append] at hv
    rcases hv with (hv | hv | hv) | hv
    · exact (before.lasting v hv).trans (visited.ext.trans ends)
    · exact (child v hv).trans ends
    · exact (after.lasting v hv).trans rest
    · exact ih v hv

theorem visit_lasting (n : NodeId) (hs : Sound w) (hok : visit env n w = .ok () w') :
    Lasting env n w w' := by
  refine visit_rounds (P := Lasting env) ?_ n hs hok
  intro n w plan v v' w' hs henter admitted rounds done visited m hm
  rw [moments_of_ok henter rounds] at hm
  simp only [List.mem_cons, List.mem_append] at hm
  rcases hm with rfl | hm | hm
  · exact visited.ext
  · exact (rounds.lasting m hm).trans done.isLocal.ext
  · exact done.lasting m hm

theorem visitUnit_lasting {notes : Annotations} (hok : visitUnit env (start env notes) = .ok () w) :
    ∀ v ∈ unitMoments env notes, v.index.Extends w.index :=
  (visitUnit_rounds (fun c _ _ _ hs hok => visit_lasting c hs hok) hok).lasting

end Later

end AblResolve.Walk
