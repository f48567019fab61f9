import AblResolve.Proofs.DeedsOfActions
import AblResolve.Proofs.Rounds
import AblResolve.Proofs.Strides
/-!
What a whole walk preserves. A walk enters nodes and does actions, and only entering a node
announces declarations, takes them up or loads tables. What is kept by each holds of the whole walk;
it may speak of the nodes that have been entered so far.
-/
namespace AblResolve.Walk

open UnitIndex ParseTree

/-- The deeds that actions do. -/
def Deed.isOfAction : Deed → Bool
  | .make .. | .attach _ | .sign .. | .enlist .. | .turn _ => true
  | _ => false

/-- Actions may work on tables, and write what is defined on buffer definitions. -/
def actions (env : Env) : Licence where
  nodes m := (env.tree.kind m).isBufferDefinition
  tables := True

section Keeping

variable {env : Env} {n : NodeId} {w₀ w w' : Walk}

theorem Joins.isOfAction {s : SymbolId} {mode : ParameterMode} {attaching : Bool} {ds : List Deed}
    (h : Joins w s mode attaching ds) : ∀ d ∈ ds, d.isOfAction := by
  intro d hd
  cases h with
  | event =>
    cases List.mem_singleton.1 hd
    rfl
  | routine =>
    cases attaching with
    | true =>
      simp only [if_true, List.singleton_append, List.mem_cons, List.not_mem_nil, or_false] at hd
      rcases hd with rfl | rfl <;> rfl
    | false =>
      cases List.mem_singleton.1 hd
      rfl

theorem Acting.isOfAction {a : Action} {ds : List Deed} (h : Acting w w' a ds) :
    ∀ d ∈ ds, d.isOfAction := by
  intro d hd
  cases h with
  | idle => cases hd
  | attach | closeEvent =>
    cases List.mem_singleton.1 hd
    rfl
  | addParameter joins | addTableParameter _ _ joins => exact joins.isOfAction d hd
  | defineBuffer =>
    simp only [List.mem_cons, List.not_mem_nil, or_false] at hd
    rcases hd with rfl | rfl <;> rfl
  | addBufferParameter noted joins =>
    rcases List.mem_cons.1 hd with rfl | hd
    · rfl
    · exact joins.isOfAction d hd

/-- The action writes on buffer definitions only. -/
def Action.Fits (env : Env) (a : Action) : Prop :=
  ∀ m, (acting a).nodes m → (env.tree.kind m).isBufferDefinition

theorem Action.Fits.of_isPlain {a : Action} (plain : a.isPlain) : a.Fits env := by
  intro m hm
  cases a <;> first | exact hm.elim | cases plain

theorem Leaving.fits {leave : List Action} (h : Leaving env n leave) : ∀ a ∈ leave, a.Fits env := by
  intro a ha m hm
  cases h with
  | plain plain => exact Action.Fits.of_isPlain (plain a ha) m hm
  | event | parameter =>
    simp only [List.mem_cons, List.not_mem_nil, or_false] at ha
    rcases ha with rfl | rfl | rfl <;> exact hm.elim
  | buffer kind | bufferParameter kind =>
    cases List.mem_singleton.1 ha
    obtain rfl : m = n := hm
    rw [kind]
    rfl
  | tableParameter =>
    cases List.mem_singleton.1 ha
    exact hm.elim

/-- What is kept whenever a node is entered and whenever something is done besides. -/
structure Keeps (env : Env) (Q : List (NodeId × Walk) → Walk → Prop) : Prop where
  enters : ∀ es n w plan w', Sound w → ((es ++ [(n, w)]).map (·.1)).Nodup →
    enter env n w = .ok plan w' → Admitted env n w plan w' → Q es w → Q (es ++ [(n, w)]) w'
  acts : ∀ es w ds w', Sound w → Strides w w' → Log env (actions env) w ds w' →
    (∀ d ∈ ds, d.isOfAction) → Q es w → Q es w'

variable {Q : List (NodeId × Walk) → Walk → Prop} {es : List (NodeId × Walk)}

theorem Done.keep {as : List Action} (h : Done env n w as w') (keeps : Keeps env Q)
    (fits : ∀ a ∈ as, a.Fits env) (start : Q es w) : Q es w' := by
  induction h with
  | nil => exact start
  | cons sound ok performs act rest ih =>
    obtain ⟨ds, log, acting⟩ := perform_log ok
    refine ih (fun a ha => fits a (List.mem_cons_of_mem _ ha)) (keeps.acts es _ ds _ sound
      (performs.strides sound) (log.mono (fits _ List.mem_cons_self) fun _ => trivial)
      acting.isOfAction start)

/-- What the visit of a child keeps, as long as no node is entered twice. -/
def Kept (env : Env) (Q : List (NodeId × Walk) → Walk → Prop) (c : NodeId) (v v' : Walk) : Prop :=
  ∀ es, ((es ++ entries env c v).map (·.1)).Nodup → Q es v → Q (es ++ entries env c v) v'

theorem nodup_left {es es' : List (NodeId × Walk)} (h : ((es ++ es').map (·.1)).Nodup) :
    (es.map (·.1)).Nodup := by
  rw [List.map_append] at h
  exact (List.nodup_append.1 h).1

theorem Rounds.keep {steps : List (Step env.tree n)} (h : Rounds env n w₀ (Kept env Q) steps w w')
    (keeps : Keeps env Q) (fits : ∀ s ∈ steps, ∀ a ∈ s.before ++ s.after, a.Fits env)
    (nodup : ((es ++ stepsEntries env steps w).map (·.1)).Nodup) (start : Q es w) :
    Q (es ++ stepsEntries env steps w) w' := by
  induction h generalizing es with
  | nil =>
    rw [stepsEntries, collect, List.append_nil]
    exact start
  | cons sound prepared tells before began visit visited child after once run others ih =>
    have own := fits _ List.mem_cons_self
    rw [stepsEntries_of_ok run, Step.entries_of_done prepared before,
      ← List.append_assoc] at nodup ⊢
    refine ih (fun s hs => fits s (List.mem_cons_of_mem _ hs)) nodup ?_
    refine after.keep keeps (fun a ha => own a (List.mem_append_right _ ha))
      (child es (nodup_left nodup) ?_)
    refine before.keep keeps (fun a ha => own a (List.mem_append_left _ ha)) ?_
    exact keeps.acts es _ [] _ sound (.single ⟨tells.stride, tells.sound sound⟩)
      (.calm (Calmly.prepare _ _ _ _ prepared)) (by simp) start

theorem visit_keep (keeps : Keeps env Q) (n : NodeId) (hs : Sound w)
    (hok : visit env n w = .ok () w') : Kept env Q n w w' := by
  refine visit_rounds (P := Kept env Q) ?_ n hs hok
  intro n w plan v v' w' hs henter admitted rounds done visited es nodup start
  obtain ⟨ds, log, begins⟩ := enter_begins hs henter
  rw [entries_of_ok henter, List.append_cons] at nodup ⊢
  refine done.keep keeps begins.leaving.fits (rounds.keep keeps ?_ nodup ?_)
  · exact fun s hmem a ha => Action.Fits.of_isPlain (begins.steps s hmem a ha)
  · exact keeps.enters es n w plan v hs (nodup_left nodup) henter admitted start

/-- What is kept holds in the end of all nodes that the walk over a unit has entered. -/
theorem visitUnit_keep {notes : Annotations} (keeps : Keeps env Q)
    (hok : visitUnit env (start env notes) = .ok () w) (begins : Q [] (start env notes)) :
    Q (unitEntries env notes) w := by
  have rounds := visitUnit_rounds (fun c _ v v' hs hok => visit_keep keeps c hs hok) hok
  have nodup : ((([] : List (NodeId × Walk)) ++ unitEntries env notes).map (·.1)).Nodup :=
    unitEntries_nodup _ _
  refine rounds.keep keeps ?_ nodup begins
  intro s hmem a ha
  obtain ⟨c, -, rfl⟩ := List.mem_map.1 hmem
  cases ha

/-- What is written on a node which is neither a name nor the definition of a buffer is written when
the node is entered. -/
theorem visitUnit_heading {notes : Annotations} {m : NodeId}
    (hok : visitUnit env (start env notes) = .ok () w) (plain : env.tree.kind m ≠ .identifier)
    (other : (env.tree.kind m).isBufferDefinition = false) :
    (w.notes.get m).heading = ((start env notes).notes.get m).heading ∨
      ∃ v plan u, (m, v) ∈ unitEntries env notes ∧ enter env m v = .ok plan u ∧
        (w.notes.get m).heading = (u.notes.get m).heading := by
  let Q (es : List (NodeId × Walk)) (w : Walk) : Prop :=
    (w.notes.get m).heading = ((start env notes).notes.get m).heading ∨
      ∃ v plan u, (m, v) ∈ es ∧ enter env m v = .ok plan u ∧
        (w.notes.get m).heading = (u.notes.get m).heading
  have keeps : Keeps env Q := by
    refine ⟨fun es n w plan w' hs _ henter admitted kept => ?_,
      fun es w ds w' hs _ log _ kept => ?_⟩
    · by_cases hne : m = n
      · subst hne
        exact .inr ⟨w, plan, w', by simp, henter, rfl⟩
      · have same := admitted.enters.kept hne plain
        refine kept.imp (same ▸ ·) fun ⟨v, plan', u, he, henter', written⟩ => ?_
        exact ⟨v, plan', u, List.mem_append_left _ he, henter', same ▸ written⟩
    · have same : (w'.notes.get m).heading = (w.notes.get m).heading :=
        log.written (by simp [actions, other])
      exact kept.imp same.trans fun ⟨v, plan, u, he, henter, written⟩ =>
        ⟨v, plan, u, he, henter, same.trans written⟩
  exact visitUnit_keep keeps hok (.inl rfl)

end Keeping

end AblResolve.Walk
