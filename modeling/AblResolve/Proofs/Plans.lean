import AblResolve.Proofs.Course
import AblResolve.Walk.Enter.Definitions
/-!
The courses of plans. Most plans visit their children with one thing open from the first to the
last, so that only what is done after a child tells them apart; `course_append` does the induction
for all of these.
-/
namespace AblResolve.Walk

open UnitIndex

variable {env : Env} {n : NodeId} {x : UnitIndex} {F₀ F : Frame} {leave undo : List Action}
  {done : List NodeId} {steps more : List (Step env.tree n)}

/-! ### Steps on one level -/

/-- A step that is made while `F` is open and leaves it open. -/
structure Step.Level (env : Env) {n : NodeId} (x : UnitIndex) (F₀ F : Frame) (undo : List Action)
    (s : Step env.tree n) : Prop where
  before : s.before = []
  onFailure : s.onFailure = undo
  plain : s.qualifier ≠ some .schemaTableSymbol
  uses : s.after.filter (·.isUse) = handleUses env n s.child.val
  after : ∀ done, (env.tree.kind s.child.val = .record → F.scope = F₀.scope →
    s.child.val ∈ done) → Acts env n x F₀ done F s.after F

/-- The records among the steps, if they are visited from the scope in which the node was
entered. -/
def Records (F₀ F : Frame) (steps : List (Step env.tree n)) (done : List NodeId) : Prop :=
  ∀ s ∈ steps, env.tree.kind s.child.val = .record → F.scope = F₀.scope → s.child.val ∈ done

theorem course_append (opened : Opened env.tree x F₀ F undo)
    (level : ∀ s ∈ steps, s.Level env x F₀ F undo)
    (fits : ∀ s ∈ steps, env.tree.WellPlaced → Fits env.tree n F₀ → Fits env.tree s.child.val F)
    (once : ((steps ++ more).map (·.child.val)).Nodup)
    (next : ∀ done', done ⊆ done' → Records F₀ F steps done' →
      Course env n x F₀ leave done' F more) :
    Course env n x F₀ leave done F (steps ++ more) := by
  induction steps generalizing done with
  | nil => exact next done (List.Subset.refl _) (by simp [Records])
  | cons s steps ih =>
    have hs := level s List.mem_cons_self
    rw [List.cons_append, List.map_cons, List.nodup_cons] at once
    let isDone := env.tree.kind s.child.val = .record ∧ F.scope = F₀.scope
    let done' := if isDone then s.child.val :: done else done
    have grows : done ⊆ done' := by
      by_cases h : isDone
      · simp only [done', if_pos h]
        exact List.subset_cons_self _ _
      · simp only [done', if_neg h]
        exact List.Subset.refl _
    have visited : env.tree.kind s.child.val = .record → F.scope = F₀.scope →
        s.child.val ∈ done' := by
      intro hrecord hscope
      simp only [done', if_pos (show isDone from ⟨hrecord, hscope⟩)]
      exact List.mem_cons_self
    have opened' : Opened env.tree x F₀ F s.onFailure := hs.onFailure ▸ opened
    refine .step ?_ opened' ?_ (hs.after done' visited) (by simp [hs.before]) hs.uses ?_ hs.plain
      (fits s List.mem_cons_self) ?_
    · rw [hs.before]
      exact .nil F
    · intro r hr
      by_cases h : isDone
      · simp only [done', if_pos h, List.mem_cons] at hr
        rcases hr with rfl | hr
        · exact .inr ⟨rfl, h⟩
        · exact .inl hr
      · simp only [done', if_neg h] at hr
        exact .inl hr
    · intro s' hs' heq
      exact once.1 (List.mem_map.2 ⟨s', hs', heq⟩)
    · refine ih (fun s' hs' => level s' (List.mem_cons_of_mem _ hs'))
        (fun s' hs' => fits s' (List.mem_cons_of_mem _ hs')) once.2 ?_
      intro done'' hsub hrecords
      refine next done'' (List.Subset.trans grows hsub) fun s' hs' hrecord hscope => ?_
      rcases List.mem_cons.1 hs' with rfl | hs'
      · exact hsub (visited hrecord hscope)
      · exact hrecords s' hs' hrecord hscope

/-- All steps on one level. -/
theorem course_level (opened : Opened env.tree x F₀ F undo)
    (level : ∀ s ∈ steps, s.Level env x F₀ F undo)
    (fits : ∀ s ∈ steps, env.tree.WellPlaced → Fits env.tree n F₀ → Fits env.tree s.child.val F)
    (once : (steps.map (·.child.val)).Nodup) (quiet : ∀ a ∈ leave, a.isLate = false)
    (acts : ∀ done, Records F₀ F steps done → Acts env n x F₀ done F leave F₀) :
    Course env n x F₀ leave done F steps := by
  have course : Course env n x F₀ leave done F (steps ++ []) :=
    course_append opened level fits (by simpa using once) fun done _ hrecords =>
      .leave (acts done hrecords) quiet
  simpa using course

/-! ### Bare steps -/

/-- A step that does nothing but tell its child how it is used. -/
structure Step.Bare {t : ParseTree} {n : NodeId} (s : Step t n) : Prop where
  before : s.before = []
  after : s.after = []
  onFailure : s.onFailure = []
  plain : s.qualifier ≠ some .schemaTableSymbol

/-- Bare steps to different children. -/
structure BareSteps {t : ParseTree} {n : NodeId} (steps : List (Step t n)) : Prop where
  bare : ∀ s ∈ steps, s.Bare
  once : (steps.map (·.child.val)).Nodup

section Families

variable {t : ParseTree} {m : NodeId}

theorem nodup_childList (t : ParseTree) (m : NodeId) :
    ((t.childList m).map (·.val)).Nodup := by
  rw [ParseTree.childList, List.attach_map_subtype_val]
  exact t.nodup_children m

theorem nodup_child {steps : List (Step t m)} {cs : List (t.Child m)}
    (child : steps.map (·.child) = cs) (once : (cs.map (·.val)).Nodup) :
    (steps.map (·.child.val)).Nodup := by
  have hsame : steps.map (·.child.val) = (steps.map (·.child)).map (·.val) := by simp
  rw [hsame, child]
  exact once

theorem nodup_map_child {f : t.Child m → Step t m} (child : ∀ c, (f c).child = c) :
    (((t.childList m).map f).map (·.child.val)).Nodup :=
  nodup_child (by simp [Function.comp_def, child]) (nodup_childList t m)

theorem bareSteps_map {f : t.Child m → Step t m} {cs : List (t.Child m)}
    (child : ∀ c, (f c).child = c) (bare : ∀ c, (f c).Bare) (once : (cs.map (·.val)).Nodup) :
    BareSteps (cs.map f) := by
  refine ⟨fun s hs => ?_, nodup_child (by simp [Function.comp_def, child]) once⟩
  obtain ⟨c, -, rfl⟩ := List.mem_map.1 hs
  exact bare c

theorem bareSteps_plain : BareSteps (plainSteps t m) :=
  bareSteps_map (fun _ => rfl) (fun _ => ⟨rfl, rfl, rfl, by simp [Step.plain]⟩)
    (nodup_childList t m)

theorem bareSteps_qualified {q : Qualifier} (h : q ≠ .schemaTableSymbol) :
    BareSteps (qualifiedSteps t m q) :=
  bareSteps_map (fun _ => rfl) (fun _ => ⟨rfl, rfl, rfl, by simpa using h⟩) (nodup_childList t m)

theorem bareSteps_qualifying (kind : NodeKind) {q : Qualifier} (h : q ≠ .schemaTableSymbol) :
    BareSteps (qualifyingSteps t m kind q) := by
  refine bareSteps_map (fun _ => rfl) (fun c => ⟨rfl, rfl, rfl, ?_⟩) (nodup_childList t m)
  show (if t.kind c.val = kind then some q else none) ≠ _
  split <;> simp [h]

theorem bareSteps_first (kind : NodeKind) {q : Qualifier} (h : q ≠ .schemaTableSymbol) :
    BareSteps (firstSteps t m kind q) := by
  refine bareSteps_map (fun _ => rfl) (fun c => ⟨rfl, rfl, rfl, ?_⟩) (nodup_childList t m)
  show (if t.childOfKind? m kind = some c.val then some q else none) ≠ _
  split <;> simp [h]

theorem bareSteps_only (kind : NodeKind) {q : Qualifier} (h : q ≠ .schemaTableSymbol) :
    BareSteps (onlySteps t m kind q) := by
  refine bareSteps_map (fun _ => rfl) (fun c => ⟨rfl, rfl, rfl, by simpa using h⟩) ?_
  exact (nodup_childList t m).sublist (List.filter_sublist.map _)

theorem bareSteps_cons {s : Step t m} {steps : List (Step t m)} (bare : s.Bare)
    (fresh : s.child.val ∉ steps.map (·.child.val)) (rest : BareSteps steps) :
    BareSteps (s :: steps) := by
  refine ⟨fun s' hs' => ?_, List.nodup_cons.2 ⟨fresh, rest.once⟩⟩
  rcases List.mem_cons.1 hs' with rfl | hs'
  · exact bare
  · exact rest.bare s' hs'

theorem child_operandSteps (q rest : Qualifier) (cs : List (t.Child m)) :
    (operandSteps.go t m rest q cs).map (·.child) = cs := by
  induction cs generalizing q with
  | nil => rfl
  | cons c cs ih =>
    unfold operandSteps.go
    split <;> simp [ih, Step.plain]

theorem bareSteps_operands {first rest : Qualifier} (hfirst : first ≠ .schemaTableSymbol)
    (hrest : rest ≠ .schemaTableSymbol) : BareSteps (operandSteps t m first rest) := by
  have bare : ∀ (cs : List (t.Child m)) (q : Qualifier), q ≠ .schemaTableSymbol →
      ∀ s ∈ operandSteps.go t m rest q cs, s.Bare := by
    intro cs
    induction cs with
    | nil => simp [operandSteps.go]
    | cons c cs ih =>
      intro q hq s hs
      unfold operandSteps.go at hs
      split at hs
      · rcases List.mem_cons.1 hs with rfl | hs
        · exact ⟨rfl, rfl, rfl, by simpa using hq⟩
        · exact ih rest hrest s hs
      · rcases List.mem_cons.1 hs with rfl | hs
        · exact ⟨rfl, rfl, rfl, by simp [Step.plain]⟩
        · exact ih q hq s hs
  exact ⟨bare _ _ hfirst, nodup_child (child_operandSteps _ _ _) (nodup_childList t m)⟩

theorem child_relationSteps (h : TableHint) (cs : List (t.Child m)) :
    (relationSteps t m h cs).map (·.child) = cs := by
  induction cs generalizing h with
  | nil => rfl
  | cons c cs ih =>
    unfold relationSteps
    split <;> simp [ih, Step.plain]

theorem bareSteps_relation : BareSteps (relationSteps t m .previous (t.childList m)) := by
  have bare : ∀ (cs : List (t.Child m)) (h : TableHint), ∀ s ∈ relationSteps t m h cs, s.Bare := by
    intro cs
    induction cs with
    | nil => simp [relationSteps]
    | cons c cs ih =>
      intro h s hs
      unfold relationSteps at hs
      split at hs
      · rcases List.mem_cons.1 hs with rfl | hs
        · exact ⟨rfl, rfl, rfl, by simp⟩
        · exact ih _ s hs
      · rcases List.mem_cons.1 hs with rfl | hs
        · exact ⟨rfl, rfl, rfl, by simp [Step.plain]⟩
        · exact ih _ s hs
  exact ⟨bare _ _, nodup_child (child_relationSteps _ _) (nodup_childList t m)⟩

end Families

/-! ### Plans of bare steps -/

theorem handleUses_eq_nil (hn : (env.tree.kind n).isHandle = false) (c : NodeId) :
    handleUses env n c = [] := by
  unfold handleUses
  rw [if_neg]
  rintro ⟨hkind | hkind, -⟩ <;> simp [hkind, NodeKind.isHandle] at hn

theorem Step.Bare.level {s : Step env.tree n} (h : s.Bare)
    (hn : (env.tree.kind n).isHandle = false) : s.Level env x F₀ F [] where
  before := h.before
  onFailure := h.onFailure
  plain := h.plain
  uses := by rw [h.after, handleUses_eq_nil hn]; rfl
  after done _ := by
    rw [h.after]
    exact .nil F

theorem Step.Bare.guard {s : Step env.tree n} (h : s.Bare)
    (hn : (env.tree.kind n).isHandle = false) (undo : List Action) :
    (s.guard undo).Level env x F₀ F undo where
  before := h.before
  onFailure := by simp [Step.guard, h.onFailure]
  plain := h.plain
  uses := by
    show s.after.filter _ = _
    rw [h.after, handleUses_eq_nil hn]
    rfl
  after done _ := by
    show Acts env n x F₀ done F s.after F
    rw [h.after]
    exact .nil F

/-- A node at which nothing is opened. -/
theorem course_plain (hkind : (env.tree.kind n).isOrdinary) (bare : BareSteps steps)
    (quiet : ∀ a ∈ leave, a.isLate = false)
    (acts : ∀ done, (∀ s ∈ steps, env.tree.kind s.child.val = .record → s.child.val ∈ done) →
      Acts env n x F₀ done F₀ leave F₀) :
    Course env n x F₀ leave [] F₀ steps := by
  have hn := NodeKind.not_isHandle_of_isOrdinary hkind
  refine course_level .nothing (fun s hs => (bare.bare s hs).level hn) ?_ bare.once quiet ?_
  · intro s _ wp h
    exact h.ordinary wp s.child.property hkind rfl
  · intro done hrecords
    exact acts done fun s hs hrecord => hrecords s hs hrecord rfl

/-- A node that keeps one thing open around all its children. -/
theorem course_around (opened : Opened env.tree x F₀ F undo) (bare : BareSteps steps)
    (hn : (env.tree.kind n).isHandle = false)
    (fits : ∀ c ∈ env.tree.children n, env.tree.WellPlaced → Fits env.tree n F₀ →
      Fits env.tree c F)
    (quiet : ∀ a ∈ leave, a.isLate = false)
    (acts : ∀ done, Acts env n x F₀ done F leave F₀) :
    Course env n x F₀ leave [] F (steps.map (Step.guard undo)) := by
  refine course_level opened ?_ (fun s _ => fits _ s.child.property) ?_ quiet ?_
  · intro s hs
    obtain ⟨s', hs', rfl⟩ := List.mem_map.1 hs
    exact (bare.bare s' hs').guard hn undo
  · have hsame : (steps.map (Step.guard undo)).map (·.child.val) = steps.map (·.child.val) := by
      simp [Function.comp_def, Step.guard]
    rw [hsame]
    exact bare.once
  · intro done _
    exact acts done

end AblResolve.Walk
