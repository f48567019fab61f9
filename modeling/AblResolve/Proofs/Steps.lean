import AblResolve.Proofs.Enter
import AblResolve.Proofs.Perform
import AblResolve.Walk.Visit
/-!
The steps of a plan. `Amid` is what holds between two steps at a node, `Poised` what holds when
the child of a step is about to be visited, and `Visited` what a visit that succeeds has done. A
step leads from the first to the second, and after the visit back to the first.
-/
namespace AblResolve.Walk

open UnitIndex ParseTree

/-! ### What is done at one node -/

/-- What anything that is done at node `n`, short of entering it, leaves as it was. -/
structure Local (env : Env) (n : NodeId) (w w' : Walk) : Prop where
  sound : Sound w → Sound w'
  ext : w.index.Extends w'.index
  inRange : w.InRange → w'.InRange
  apart : ∀ m, m ≠ n → m ∉ env.tree.children n → w'.notes.get m = w.notes.get m
  meaning : ∀ m, m ≠ n ∨ (env.tree.kind m).isName →
    meaning (w'.notes.get m) = meaning (w.notes.get m)

section Local

variable {env : Env} {n : NodeId} {w w' w'' : Walk}

theorem Local.refl (w : Walk) : Local env n w w :=
  ⟨id, .refl _, id, fun _ _ _ => rfl, fun _ _ => rfl⟩

theorem Local.trans (h : Local env n w w') (k : Local env n w' w'') : Local env n w w'' where
  sound := k.sound ∘ h.sound
  ext := h.ext.trans k.ext
  inRange := k.inRange ∘ h.inRange
  apart m hne hchild := (k.apart m hne hchild).trans (h.apart m hne hchild)
  meaning m hm := (k.meaning m hm).trans (h.meaning m hm)

theorem Performs.isLocal {action : Action} (h : Performs env n w action w') :
    Local env n w w' where
  sound := h.sound
  ext := h.extends
  inRange := h.inRange
  apart _ hne hchild := h.apart hne hchild
  meaning _ hm := h.meaning hm

theorem Runs.isLocal (h : Runs env n w w') : Local env n w w' where
  sound := h.sound
  ext := h.extends
  inRange := h.inRange
  apart _ hne _ := h.apart hne
  meaning _ hm := h.meaning hm

theorem Tells.isLocal {c : NodeId} (h : Tells env c w w') : Local env n w w' := by
  have hsound := h.sound
  obtain ⟨qualifiers, hints, rfl⟩ := h.eq
  exact ⟨hsound, .refl _, id, fun _ _ _ => rfl, fun _ _ => rfl⟩

/-- What is done at node `n` before its child `c` is visited: the child is told what it has to
know, and then the node makes itself ready. -/
def Readies (env : Env) (n c : NodeId) (w w' : Walk) : Prop :=
  ∃ v, Tells env c w v ∧ Runs env n v w'

theorem Readies.isLocal {c : NodeId} (h : Readies env n c w w') : Local env n w w' := by
  obtain ⟨v, tells, runs⟩ := h
  exact tells.isLocal.trans runs.isLocal

end Local

/-- Several actions at node `n`, one after the other. -/
inductive Performed (env : Env) (n : NodeId) : Walk → List Action → Walk → Prop
  | nil (w : Walk) : Performed env n w [] w
  | cons {w w₁ w' : Walk} {action : Action} {actions : List Action}
      (first : Performs env n w action w₁) (rest : Performed env n w₁ actions w') :
      Performed env n w (action :: actions) w'

theorem Performed.isLocal {env : Env} {n : NodeId} {w w' : Walk} {actions : List Action}
    (h : Performed env n w actions w') : Local env n w w' := by
  induction h with
  | nil w => exact .refl w
  | cons first _ ih => exact first.isLocal.trans ih

/-- Actions among which none writes about a node below are a run. -/
theorem Performed.runs {env : Env} {n : NodeId} {w w' : Walk} {actions : List Action}
    (h : Performed env n w actions w') (quiet : ∀ a ∈ actions, a.isLate = false) :
    Runs env n w w' := by
  induction h with
  | nil => exact .refl
  | cons first _ ih =>
    have hfirst := quiet _ List.mem_cons_self
    have hrest := ih fun a ha => quiet a (List.mem_cons_of_mem _ ha)
    cases first with
    | runs _ runs => exact runs.trans hrest
    | bind | unused | use => simp [Action.isLate] at hfirst

/-- Where no buffers are listed, actions that count no uses are a run. -/
theorem Performed.runs_of_kind {env : Env} {n : NodeId} {w w' : Walk} {actions : List Action}
    (h : Performed env n w actions w') (hn : env.tree.kind n ≠ .blockFor)
    (quiet : ∀ a ∈ actions, a.isUse = false) : Runs env n w w' := by
  induction h with
  | nil => exact .refl
  | cons first _ ih =>
    have hfirst := quiet _ List.mem_cons_self
    have hrest := ih fun a ha => quiet a (List.mem_cons_of_mem _ ha)
    cases first with
    | runs _ runs => exact runs.trans hrest
    | bind binds => exact absurd binds.kind hn
    | unused | use => simp [Action.isUse] at hfirst

/-- A record that has been found stays found. -/
theorem Resolved.of_ext {w w' : Walk} {a : ScopeId} {r : NodeId} (h : Resolved w a r)
    (hs : Sound w) (ha : a.val < w.index.scopes.size) (ext : w.index.Extends w'.index)
    (same : meaning (w'.notes.get r) = meaning (w.notes.get r)) : Resolved w' a r := by
  obtain ⟨b, hb, isBuffer, sees, attached⟩ := h
  have hsymbol : (w'.notes.get r).symbol = (w.notes.get r).symbol := congrArg (·.1) same
  exact ⟨b, hsymbol.trans hb, isBuffer.extends ext, sees.extends ext hs.coherent.scopeTree ha,
    attached.extends ext⟩

theorem Faults.imp {t : ParseTree} {n : NodeId} {F₀ : Frame} {stale stale' : Prop} {f : Fault}
    {w : Walk} (h : Faults t n F₀ stale f w) (imp : stale → stale') :
    Faults t n F₀ stale' f w := by
  cases h with
  | misplaced misfit => exact .misplaced misfit
  | dangling why => exact .dangling (imp why)

section Actions

variable {env : Env} {n : NodeId} {w : Walk} {F₀ F F' : Frame} {done : List NodeId}
  {actions : List Action}

theorem ends_performAll {x : UnitIndex} (acts : Acts env n x F₀ done F actions F')
    (ext : x.Extends w.index) (hs : Sound w) (hframe : w.frame = F)
    (hscope : F₀.scope.val < w.index.scopes.size)
    (resolved : ∀ r ∈ done, env.tree.kind r = .record ∧ Resolved w F₀.scope r) :
    Ends (performAll env actions) w
      (fun f w' => actions ≠ [] ∧ Faults env.tree n F₀ (¬ w.InRange) f w')
      fun _ w' => Performed env n w actions w' ∧ w'.frame = F' := by
  induction acts generalizing w with
  | nil F => exact ⟨.nil w, hframe⟩
  | cons act rest ih =>
    subst hframe
    unfold performAll
    rw [ends_forM_cons]
    have performs := ends_perform env n hs (act.extends ext) fun r hr => (resolved r hr).2
    refine performs.mono (fun _ _ fault => ⟨List.cons_ne_nil _ _, fault⟩) ?_
    rintro _ w₁ ⟨first, hframe₁⟩
    have loc := first.isLocal
    refine (ih (ext.trans loc.ext) (loc.sound hs) hframe₁ (loc.ext.scopes.lt_size hscope) ?_).mono
      (fun f w' fault => ⟨List.cons_ne_nil _ _, fault.2.imp (mt loc.inRange)⟩) ?_
    · intro r hr
      obtain ⟨hkind, h⟩ := resolved r hr
      exact ⟨hkind, h.of_ext hs hscope loc.ext (loc.meaning r (.inr (by simp [hkind])))⟩
    · rintro _ w' ⟨performed, hframe'⟩
      exact ⟨.cons first performed, hframe'⟩

theorem ends_prepare {step : Step env.tree n} (plain : step.qualifier ≠ some .schemaTableSymbol) :
    Ends (prepare env step) w Never fun _ w' => Tells env step.child.val w w' := by
  have hinted : ∀ {v} h, Tells env step.child.val w v →
      Ends (hint step.child.val h) v Never fun _ w' => Tells env step.child.val w w' :=
    fun _ tells => tells.tail (.hint _)
  unfold prepare
  cases hq : step.qualifier with
  | none =>
    cases step.hint with
    | none => exact .refl
    | some h => exact hinted h .refl
  | some q =>
    have qualified : Ends (qualify env step.child.val q) w Never fun _ v =>
        Tells env step.child.val w v := by
      unfold qualify
      split
      · rename_i asks
        refine .single (.qualify asks ?_)
        rintro rfl
        exact plain hq
      · exact .refl
    dsimp only
    rw [ends_bind]
    refine qualified.imp fun _ v tells => ?_
    cases step.hint with
    | none => exact tells
    | some h => exact hinted h tells

end Actions

/-! ### Visits of children -/

/-- What a visit of node `n` that succeeds has done. -/
structure Visited (env : Env) (n : NodeId) (w w' : Walk) : Prop where
  sound : Sound w'
  frame : w'.frame = w.frame
  ext : w.index.Extends w'.index
  inRange : w.InRange → w'.InRange
  apart : ∀ m, ¬ env.tree.Within n m → w'.notes.get m = w.notes.get m
  record : n ≠ root → env.tree.kind n = .record → Resolved w' w.scope n

/-- What holds at node `n` since it was entered in state `w₀`. The children in `todo` are still to
be visited, and so are untouched unless the node has found out what members they name; the
records in `done` have been visited from the scope in which the node was entered. -/
structure Since (env : Env) (n : NodeId) (w₀ : Walk) (todo done : List NodeId) (w : Walk) :
    Prop where
  entered : Sound w₀
  sound : Sound w
  ext : w₀.index.Extends w.index
  inRange : w₀.InRange → w.InRange
  apart : ∀ m, ¬ env.tree.Within n m → w.notes.get m = w₀.notes.get m
  children : ∀ c ∈ todo, c ∈ env.tree.children n
  below : ∀ c ∈ todo, ∀ m, env.tree.Within c m → m ≠ c ∨ env.tree.kind m ≠ .identifier →
    meaning (w.notes.get m) = meaning (w₀.notes.get m)
  records : ∀ r ∈ done, r ∈ env.tree.children n ∧ env.tree.kind r = .record ∧ r ∉ todo
  resolved : ∀ r, r = n ∧ n ≠ root ∨ r ∈ done → env.tree.kind r = .record →
    Resolved w w₀.scope r

section Since

variable {env : Env} {n c : NodeId} {w₀ w w' : Walk} {todo done done' : List NodeId}

theorem Since.scope_lt (h : Since env n w₀ todo done w) :
    w₀.frame.scope.val < w.index.scopes.size :=
  h.ext.scopes.lt_size h.entered.scope_lt

theorem Since.advance (h : Since env n w₀ todo done w) (loc : Local env n w w') :
    Since env n w₀ todo done w' := by
  refine ⟨h.entered, loc.sound h.sound, h.ext.trans loc.ext, loc.inRange ∘ h.inRange, ?_,
    h.children, ?_, h.records, ?_⟩
  · intro m hm
    have hne : m ≠ n := by
      rintro rfl
      exact hm (.refl m)
    rw [loc.apart m hne fun hc => hm (within_of_mem_children hc), h.apart m hm]
  · intro c hc m hwithin hm
    have hne := hwithin.ne_parent (h.children c hc)
    rw [loc.meaning m (.inl hne), h.below c hc m hwithin hm]
  · intro r hr hkind
    exact (h.resolved r hr hkind).of_ext h.sound h.scope_lt loc.ext
      (loc.meaning r (.inr (by simp [hkind])))

theorem Since.visit (h : Since env n w₀ (c :: todo) done w) (once : c ∉ todo)
    (visited : Visited env c w w')
    (hdone : ∀ r ∈ done', r ∈ done ∨
      r = c ∧ env.tree.kind r = .record ∧ w.frame.scope = w₀.frame.scope) :
    Since env n w₀ todo done' w' := by
  have hc := h.children c List.mem_cons_self
  have kept : ∀ r, ¬ env.tree.Within c r → Resolved w w₀.scope r → Resolved w' w₀.scope r := by
    intro r hr hresolved
    exact hresolved.of_ext h.sound h.scope_lt visited.ext
      (congrArg meaning (visited.apart r hr))
  refine ⟨h.entered, visited.sound, h.ext.trans visited.ext, visited.inRange ∘ h.inRange, ?_,
    fun c' hc' => h.children c' (List.mem_cons_of_mem _ hc'), ?_, ?_, ?_⟩
  · intro m hm
    rw [visited.apart m fun hw => hm ((within_of_mem_children hc).trans hw), h.apart m hm]
  · intro c' hc' m hwithin hm
    have hne : c ≠ c' := by
      rintro rfl
      exact once hc'
    have hc'' := h.children c' (List.mem_cons_of_mem _ hc')
    rw [visited.apart m fun hw => hw.sibling hc hc'' hne hwithin,
      h.below c' (List.mem_cons_of_mem _ hc') m hwithin hm]
  · intro r hr
    rcases hdone r hr with hr | ⟨rfl, hkind, -⟩
    · obtain ⟨hchild, hkind, htodo⟩ := h.records r hr
      exact ⟨hchild, hkind, fun hmem => htodo (List.mem_cons_of_mem _ hmem)⟩
    · exact ⟨hc, hkind, once⟩
  · rintro r (⟨rfl, hroot⟩ | hr) hkind
    · exact kept r (not_within_of_mem_children hc) (h.resolved r (.inl ⟨rfl, hroot⟩) hkind)
    · rcases hdone r hr with hr | ⟨rfl, -, hscope⟩
      · obtain ⟨hchild, -, htodo⟩ := h.records r hr
        have hne : c ≠ r := by
          rintro rfl
          exact htodo List.mem_cons_self
        exact kept r (fun hw => hw.of_child_ne hc hchild hne) (h.resolved r (.inr hr) hkind)
      · have hresolved := visited.record (ne_root_of_mem_children hc) hkind
        rwa [show w.scope = w₀.scope from hscope] at hresolved

end Since

theorem Refer.resolved {env : Env} {n : NodeId} {v w : Walk} {q : Qualifier} (hs : Sound v)
    (h : Refer env n v (.record q) w) : Resolved w v.scope n := by
  cases h with
  | record bufferScope abbreviated kind isBuffer found sees attached =>
    refine ⟨_, ?_, IsBuffer.extends (extends_counted _ _ _) ⟨_, isBuffer⟩,
      sees.extends (extends_counted _ _ _) hs.coherent.scopeTree hs.scope_lt,
      attached.extends (extends_counted _ _ _)⟩
    rw [Annotations.get_update_self]

/-! ### The steps of a plan -/

/-- The children that steps visit. -/
def targets {t : ParseTree} {n : NodeId} (steps : List (Step t n)) : List NodeId :=
  steps.map (·.child.val)

/-- Between two steps. -/
structure Amid (env : Env) (n : NodeId) (w₀ : Walk) (leave : List Action)
    (steps : List (Step env.tree n)) (done : List NodeId) (w : Walk) : Prop where
  since : Since env n w₀ (targets steps) done w
  course : Course env n w.index w₀.frame leave done w.frame steps

/-- Before the visit of the child of a step. -/
structure Poised (env : Env) (n : NodeId) (w₀ : Walk) (leave : List Action)
    (step : Step env.tree n) (rest : List (Step env.tree n)) (done : List NodeId) (w : Walk) :
    Prop where
  since : Since env n w₀ (step.child.val :: targets rest) done w
  opened : Opened env.tree w.index w₀.frame w.frame step.onFailure
  fits : env.tree.WellPlaced → Fits env.tree n w₀.frame → Fits env.tree step.child.val w.frame
  uses : step.after.filter (·.isUse) = handleUses env n step.child.val
  once : step.child.val ∉ targets rest
  next : ∃ done' F, (∀ r ∈ done', r ∈ done ∨ r = step.child.val ∧ env.tree.kind r = .record ∧
      w.frame.scope = w₀.frame.scope) ∧
    Acts env n w.index w₀.frame done' w.frame step.after F ∧
    Course env n w.index w₀.frame leave done' F rest

/-- What is done before the child of a step is visited. -/
def Step.ready (env : Env) {n : NodeId} (step : Step env.tree n) : WalkM Unit := do
  prepare env step
  performAll env step.before

section Steps

variable {env : Env} {n : NodeId} {w₀ w w' : Walk} {leave : List Action}
  {step : Step env.tree n} {rest : List (Step env.tree n)} {done : List NodeId}

theorem Since.resolved_done {todo : List NodeId} (h : Since env n w₀ todo done w) :
    ∀ r ∈ done, env.tree.kind r = .record ∧ Resolved w w₀.frame.scope r := by
  intro r hr
  obtain ⟨-, hkind, -⟩ := h.records r hr
  exact ⟨hkind, h.resolved r (.inr hr) hkind⟩

/-- A node that has been entered. -/
theorem Admitted.amid {plan : Plan env.tree n} (hs : Sound w₀) (h : Admitted env n w₀ plan w) :
    Amid env n w₀ plan.leave plan.steps [] w := by
  refine ⟨⟨hs, h.enters.sound hs, h.enters.extends, h.enters.inRange, ?_, ?_, ?_, by simp, ?_⟩,
    h.course⟩
  · intro m hm
    refine h.enters.apart ?_ fun hc => hm (within_of_mem_children hc)
    rintro rfl
    exact hm (.refl m)
  · intro c hc
    obtain ⟨s, -, rfl⟩ := List.mem_map.1 hc
    exact s.child.property
  · intro c hc m hwithin hm
    obtain ⟨s, -, rfl⟩ := List.mem_map.1 hc
    have hne := hwithin.ne_parent s.child.property
    rcases hm with hm | hm
    · rw [h.enters.apart hne fun hc => hwithin.of_child_ne s.child.property hc hm.symm]
    · exact congrArg Walk.meaning (h.enters.kept hne hm)
  · rintro r (⟨rfl, -⟩ | hr) hkind
    · obtain ⟨-, v, moves, refer⟩ := h.record hkind
      have hresolved := refer.resolved (moves.runs.sound hs)
      rwa [moves.scope] at hresolved
    · simp at hr

/-- What is done before the visit of the child of a step, when the child has been told what it has
to know. -/
theorem Amid.ends_before {v : Walk} (h : Amid env n w₀ leave (step :: rest) done w)
    (tells : Tells env step.child.val w v) :
    Ends (performAll env step.before) v
      (fun f w' => step.before ≠ [] ∧ Faults env.tree n w₀.frame (¬ w₀.InRange) f w')
      fun _ w₁ => Runs env n v w₁ ∧ Poised env n w₀ leave step rest done w₁ := by
  obtain ⟨since, course⟩ := h
  cases course with
  | step before opened visited after quiet uses once plain fits course =>
    have told : Local env n w v := tells.isLocal
    have since₁ := since.advance told
    refine (ends_performAll before told.ext since₁.sound tells.frame since₁.scope_lt
      since₁.resolved_done).mono (fun f w' => .imp_right (·.imp (mt since₁.inRange))) ?_
    rintro _ w₂ ⟨performed, hframe⟩
    have runs₂ := performed.runs quiet
    have ext := told.ext.trans runs₂.extends
    refine ⟨runs₂, since₁.advance performed.isLocal, ?_, ?_, uses, ?_, ?_⟩
    · rw [hframe]
      exact opened.extends ext
    · rw [hframe]
      exact fits
    · intro hmem
      obtain ⟨s, hs, heq⟩ := List.mem_map.1 hmem
      exact once s hs heq
    · rw [hframe]
      exact ⟨_, _, visited, after.extends ext, course.extends ext⟩

theorem Amid.plain (h : Amid env n w₀ leave (step :: rest) done w) :
    step.qualifier ≠ some .schemaTableSymbol := by
  cases h.course
  assumption

theorem Amid.ends_ready (h : Amid env n w₀ leave (step :: rest) done w) :
    Ends (step.ready env) w
      (fun f w' => step.before ≠ [] ∧ Faults env.tree n w₀.frame (¬ w₀.InRange) f w')
      fun _ w₁ => Readies env n step.child.val w w₁ ∧
        Poised env n w₀ leave step rest done w₁ := by
  unfold Step.ready
  rw [ends_bind]
  refine (ends_prepare h.plain).imp fun _ v tells => ?_
  refine (h.ends_before tells).mono (fun _ _ => id) ?_
  rintro _ w₁ ⟨runs, poised⟩
  exact ⟨⟨v, tells, runs⟩, poised⟩

theorem Poised.ends_after (h : Poised env n w₀ leave step rest done w)
    (visited : Visited env step.child.val w w') :
    Ends (performAll env step.after) w'
      (fun f w'' => step.after ≠ [] ∧ Faults env.tree n w₀.frame (¬ w₀.InRange) f w'')
      fun _ w'' => Performed env n w' step.after w'' ∧
        ∃ done', Amid env n w₀ leave rest done' w'' := by
  obtain ⟨done', F, hdone, acts, course⟩ := h.next
  have since := h.since.visit h.once visited hdone
  refine (ends_performAll acts visited.ext since.sound visited.frame since.scope_lt
    since.resolved_done).mono (fun f w'' => .imp_right (·.imp (mt since.inRange))) ?_
  rintro _ w'' ⟨performed, hframe⟩
  have loc := performed.isLocal
  refine ⟨performed, done', since.advance loc, ?_⟩
  rw [hframe]
  exact course.extends (visited.ext.trans loc.ext)

theorem Amid.ends_leave (h : Amid env n w₀ leave [] done w) :
    Ends (performAll env leave) w
      (fun f w' => leave ≠ [] ∧ Faults env.tree n w₀.frame (¬ w₀.InRange) f w')
      fun _ w' => Runs env n w w' ∧ Visited env n w₀ w' := by
  obtain ⟨since, course⟩ := h
  cases course with
  | leave acts quiet =>
    refine (ends_performAll acts (.refl _) since.sound rfl since.scope_lt
      since.resolved_done).mono (fun f w' => .imp_right (·.imp (mt since.inRange))) ?_
    rintro _ w' ⟨performed, hframe⟩
    have since' := since.advance performed.isLocal
    exact ⟨performed.runs quiet, since'.sound, hframe, since'.ext, since'.inRange, since'.apart,
      fun hroot => since'.resolved n (.inl ⟨rfl, hroot⟩)⟩

end Steps

end AblResolve.Walk
