import AblResolve.Proofs.ReadBack
import AblResolve.Proofs.Unit
/-!
The balance of a walk. What a visit opens it closes, and what a node leaves for a child is taken
away by the visit of that child: while a node is being entered nobody else waits for anything, and
when the visit is over nobody does. Hints go to fields, and fields take them.
-/
namespace AblResolve

namespace SideTable

variable {α : Type} {t : SideTable α}

theorem eq_empty (h : ∀ m, t.find? m = none) : t = {} := by
  obtain ⟨entries⟩ := t
  cases entries with
  | nil => rfl
  | cons e rest => simpa [find?] using h e.1

/-- Nothing but the note of one node. -/
theorem erase_eq_empty {n : NodeId} (h : ∀ m, m ≠ n → t.find? m = none) : t.erase n = {} := by
  refine eq_empty fun m => ?_
  rw [find?_erase]
  split
  · rfl
  · rename_i hne
    exact h m (Ne.symm hne)

end SideTable

namespace Walk

open UnitIndex ParseTree

/-! ### Hints -/

/-- Node `m` has not been given a hint. -/
def Unhinted (w : Walk) (m : NodeId) : Prop := w.hints.find? m = none

section Unhinted

variable {env : Env} {n m : NodeId} {w w' : Walk}

theorem Runs.unhinted (h : Runs env n w w') (unhinted : w.Unhinted m) : w'.Unhinted m := by
  induction h with
  | refl => exact unhinted
  | tail _ step ih =>
    rcases step with move | turn
    · cases move with
      | takeHint =>
        rw [Unhinted, SideTable.find?_erase]
        split
        · rfl
        · exact ih
      | _ => exact ih
    · cases turn <;> exact ih

theorem Refer.unhinted {ref : Reference} (h : Refer env n w ref w') (unhinted : w.Unhinted m) :
    w'.Unhinted m := by
  cases h <;> exact unhinted

theorem Miss.unhinted {h : TableHint} (miss : Miss env n w h w') (unhinted : w.Unhinted m) :
    w'.Unhinted m := by
  cases miss <;> exact unhinted

theorem Enters.unhinted (h : Enters env n w w') (unhinted : w.Unhinted m) : w'.Unhinted m := by
  cases h with
  | plain runs => exact runs.unhinted unhinted
  | refer moves _ refer => exact refer.unhinted (moves.runs.unhinted unhinted)
  | miss moves miss => exact miss.unhinted (moves.runs.unhinted unhinted)

theorem Seeks.unhinted {q : Qualifier} {h : TableHint} {outcome : FieldOutcome}
    (seeks : Seeks env n q h w w' outcome) (unhinted : w.Unhinted m) : w'.Unhinted m := by
  cases seeks with
  | found moves refer => exact refer.unhinted (moves.runs.unhinted unhinted)
  | tolerated _ _ same => exact same ▸ unhinted
  | missing moves miss => exact miss.unhinted (moves.runs.unhinted unhinted)

theorem Performed.unhinted {actions : List Action} (h : Performed env n w actions w')
    (unhinted : w.Unhinted m) : w'.Unhinted m := by
  induction h with
  | nil => exact unhinted
  | cons first _ ih =>
    cases first with
    | runs _ runs => exact ih (runs.unhinted unhinted)
    | bind | unused | use => exact ih unhinted

/-- A field takes its hint when it is entered. -/
theorem enterField_unhinted (hs : Sound w) (hkind : env.tree.kind n = .field) :
    Ends (enterField env n) w Never fun _ w' => w'.Unhinted n := by
  unfold enterField
  rw [ends_bind]
  refine (ends_takeQualifier env n).imp ?_
  rintro q w₁ ⟨-, moves, -⟩
  have hs₁ := moves.runs.sound hs
  rw [ends_bind]
  show Ends _ { w₁ with hints := w₁.hints.erase n } _ _
  have taken : Walk.Unhinted { w₁ with hints := w₁.hints.erase n } n := w₁.hints.find?_erase_self n
  have sought : ∀ {v} h, Sound v → v.Unhinted n →
      Ends (do resolveField env n q h; return Plan.plain env.tree n) v Never
        fun _ w' => w'.Unhinted n := by
    intro v h hs unhinted
    rw [ends_bind]
    refine (ends_resolveField env n hs hkind q h).imp ?_
    rintro _ w' ⟨outcome, seeks⟩
    exact seeks.unhinted unhinted
  have hs₂ : Sound { w₁ with hints := w₁.hints.erase n } := { hs₁ with }
  split
  · split
    · rw [ends_bind]
      refine (ends_defineInline env n hs₂ hkind).imp ?_
      rintro _ w₃ ⟨inline, -⟩
      exact sought _ (inline.runs.sound hs₂) (inline.runs.unhinted taken)
    · exact sought _ hs₂ taken
  · exact taken

end Unhinted

/-! ### Both side tables -/

/-- Nobody waits for anything. -/
structure Quiet (w : Walk) : Prop where
  untold : NoneTold w
  unhinted : ∀ m, w.Unhinted m

/-- Nobody but node `n` waits for anything: for a qualifier if it asks for one, for a hint if it is
a field. -/
structure Awaits (env : Env) (n : NodeId) (w : Walk) : Prop where
  told : OnlyTold env n w
  hinted : ∀ m, (m = n → env.tree.kind n ≠ .field) → w.Unhinted m

section Quiet

variable {env : Env} {n c : NodeId} {w₀ w w' : Walk} {leave : List Action}
  {step : Step env.tree n} {steps rest : List (Step env.tree n)} {done : List NodeId}

theorem Quiet.of_tables (h : Quiet w) : w.qualifiers = {} ∧ w.hints = {} :=
  ⟨SideTable.eq_empty h.untold, SideTable.eq_empty h.unhinted⟩

theorem Quiet.of_runs (h : Quiet w) (runs : Runs env n w w') : Quiet w' :=
  ⟨fun m => runs.untold (h.untold m), fun m => runs.unhinted (h.unhinted m)⟩

theorem Quiet.of_performed {actions : List Action} (h : Quiet w)
    (performed : Performed env n w actions w') : Quiet w' :=
  ⟨fun m => performed.untold (h.untold m), fun m => performed.unhinted (h.unhinted m)⟩

theorem Awaits.enter {plan : Plan env.tree n} (h : Awaits env n w) (hs : Sound w)
    (henter : enter env n w = .ok plan w') : Quiet w' := by
  have admitted := (ends_enter env n hs).ok henter
  refine ⟨admitted.noneTold h.told, fun m => ?_⟩
  by_cases hm : m = n → env.tree.kind n ≠ .field
  · exact admitted.enters.unhinted (h.hinted m hm)
  · obtain ⟨rfl, hkind⟩ := Classical.not_imp.1 hm
    have hfield := not_not.1 hkind
    rw [enter_field hfield] at henter
    exact (enterField_unhinted hs hfield).ok henter

/-- Only the child of a step is given a hint, if the step has one. -/
theorem ends_prepare_unhinted {m : NodeId} (hm : m = step.child.val → step.hint = none)
    (unhinted : w.Unhinted m) : Ends (prepare env step) w Never fun _ v => v.Unhinted m := by
  have hinted : ∀ {v : Walk} {h}, step.hint = some h → v.Unhinted m →
      Ends (hint step.child.val h) v Never fun _ v' => v'.Unhinted m := by
    intro v h hh unhinted
    have hne : step.child.val ≠ m := by
      rintro rfl
      rw [hm rfl] at hh
      cases hh
    show (v.hints.set step.child.val h).find? m = none
    rw [SideTable.find?_set, if_neg hne]
    exact unhinted
  unfold prepare
  cases step.qualifier with
  | none =>
    cases hh : step.hint with
    | none => exact unhinted
    | some h => exact hinted hh unhinted
  | some q =>
    have qualified : Ends (qualify env step.child.val q) w Never fun _ v => v.Unhinted m := by
      unfold qualify
      split
      · exact unhinted
      · exact unhinted
    dsimp only
    rw [ends_bind]
    refine qualified.imp fun _ v unhinted => ?_
    cases hh : step.hint with
    | none => exact unhinted
    | some h => exact hinted hh unhinted

/-- The child of a step is told what it has to know, and nobody else is told anything. -/
theorem Amid.awaits (h : Amid env n w₀ leave (step :: rest) done w) (quiet : Quiet w)
    (honest : step.hint ≠ none → env.tree.kind step.child.val = .field)
    (hready : step.ready env w = .ok () w') : Awaits env step.child.val w' := by
  refine ⟨(h.ends_ready.ok hready).1.onlyTold quiet.untold, fun m hm => ?_⟩
  obtain ⟨_, v, hprepare, hbefore⟩ := bind_ok.1 hready
  have tells := (ends_prepare h.plain).ok hprepare
  refine (((h.ends_before tells).ok hbefore).1).unhinted ?_
  refine (ends_prepare_unhinted (fun heq => ?_) (quiet.unhinted m)).ok hprepare
  exact by_contra fun hne => hm heq (honest hne)

/-- A step that succeeds, when the visit of its child leaves nobody waiting. -/
theorem Amid.quiet_run (h : Amid env n w₀ leave (step :: rest) done w) (quiet : Quiet w)
    (honest : step.hint ≠ none → env.tree.kind step.child.val = .field)
    (child : ∀ v v', Sound v → Awaits env step.child.val v →
      visit env step.child.val v = .ok () v' → Quiet v')
    (hrun : step.run env (visit env step.child.val) w = .ok () w') :
    Quiet w' ∧ ∃ done', Amid env n w₀ leave rest done' w' := by
  obtain ⟨w₁, w₂, hready, hvisit, hafter⟩ := h.run_ok hrun
  obtain ⟨-, poised⟩ := h.ends_ready.ok hready
  obtain ⟨visited, -⟩ := (ends_visit env step.child.val poised.since.sound).ok hvisit
  obtain ⟨performed, amid⟩ := (poised.ends_after visited).ok hafter
  have below := child _ _ poised.since.sound (h.awaits quiet honest hready) hvisit
  exact ⟨below.of_performed performed, amid⟩

/-- The steps of a plan, when the visits of the children leave nobody waiting. -/
theorem Amid.quiet (h : Amid env n w₀ leave steps done w) (quiet : Quiet w)
    (honest : ∀ s ∈ steps, s.hint ≠ none → env.tree.kind s.child.val = .field)
    (visits : ∀ c ∈ env.tree.children n, ∀ v v', Sound v → Awaits env c v →
      visit env c v = .ok () v' → Quiet v')
    (hok : (do
      steps.forM fun step => step.run env (visit env step.child.val)
      performAll env leave : WalkM Unit) w = .ok () w') : Quiet w' := by
  induction steps generalizing w done with
  | nil => exact quiet.of_runs (h.ends_leave.ok hok).1
  | cons step rest ih =>
    obtain ⟨_, v, hloop, hleave⟩ := bind_ok.1 hok
    obtain ⟨_, w₁, hrun, hrest⟩ := bind_ok.1 hloop
    obtain ⟨quiet₁, done', amid⟩ := h.quiet_run quiet (honest step List.mem_cons_self)
      (visits _ step.child.property) hrun
    exact ih amid quiet₁ (fun s hs => honest s (List.mem_cons_of_mem _ hs))
      (bind_ok.2 ⟨_, v, hrest, hleave⟩)

end Quiet

section Visit

variable {n : NodeId} {w₀ w w' : Walk} {leave : List Action} {done : List NodeId}

theorem visit_quiet (env : Env) (n : NodeId) {w w' : Walk} (hs : Sound w)
    (awaits : Awaits env n w) (hok : visit env n w = .ok () w') : Quiet w' := by
  rw [visit] at hok
  obtain ⟨plan, v, henter, hsteps⟩ := bind_ok.1 hok
  have amid := ((ends_enter env n hs).ok henter).amid hs
  exact amid.quiet (awaits.enter hs henter) ((enter_honest env n).ok henter).hint
    (fun c hc _ _ hs awaits hok => visit_quiet env c hs awaits hok) hsteps
termination_by env.tree.size - n.val
decreasing_by
  have := lt_of_mem_children hc
  omega

/-- Whenever one of several steps enters a node, nobody else waits for anything. -/
theorem Amid.awaits_of_mem {env : Env} {steps : List (Step env.tree n)}
    (h : Amid env n w₀ leave steps done w) (quiet : Quiet w)
    (honest : ∀ s ∈ steps, s.hint ≠ none → env.tree.kind s.child.val = .field)
    (below : ∀ c ∈ env.tree.children n, ∀ v, Sound v → Awaits env c v →
      ∀ e ∈ entries env c v, Awaits env e.1 e.2) :
    ∀ e ∈ stepsEntries env steps w, Awaits env e.1 e.2 := by
  induction steps generalizing w done with
  | nil => simp [stepsEntries, collect]
  | cons step rest ih =>
    intro e he
    have hint := honest step List.mem_cons_self
    have own : e ∈ step.entries env w → Awaits env e.1 e.2 := by
      intro he
      cases hready : step.ready env w with
      | error f w₁ => simp [Step.entries, hready] at he
      | ok _ w₁ =>
        rw [Step.entries_of_ok hready] at he
        have poised := (h.ends_ready.ok hready).2
        exact below _ step.child.property w₁ poised.since.sound (h.awaits quiet hint hready) e he
    cases hrun : step.run env (visit env step.child.val) w with
    | error f w₁ =>
      rw [stepsEntries_of_error hrun] at he
      exact own he
    | ok _ w₁ =>
      rw [stepsEntries_of_ok hrun] at he
      obtain ⟨quiet₁, done', amid⟩ := h.quiet_run quiet hint
        (fun _ _ hs awaits hok => visit_quiet env _ hs awaits hok) hrun
      rcases List.mem_append.1 he with he | he
      · exact own he
      · exact ih amid quiet₁ (fun s hs => honest s (List.mem_cons_of_mem _ hs)) e he

theorem entries_awaits (env : Env) (n : NodeId) {w : Walk} (hs : Sound w)
    (awaits : Awaits env n w) : ∀ e ∈ entries env n w, Awaits env e.1 e.2 := by
  intro e he
  cases henter : enter env n w with
  | error f w' =>
    rw [entries_of_error henter, List.mem_singleton] at he
    exact he ▸ awaits
  | ok plan v =>
    rw [entries_of_ok henter] at he
    rcases List.mem_cons.1 he with rfl | he
    · exact awaits
    · refine (((ends_enter env n hs).ok henter).amid hs).awaits_of_mem (awaits.enter hs henter)
        ((enter_honest env n).ok henter).hint (fun c hc v hs awaits => ?_) e he
      exact entries_awaits env c hs awaits
termination_by env.tree.size - n.val
decreasing_by
  have := lt_of_mem_children hc
  omega

end Visit

/-! ### The whole walk -/

/-- A visit of node `n` leaves everything as it found it, but for what the index and the tree now
say, and takes away what `n` was waiting for. -/
structure BalancedVisit (n : NodeId) (w w' : Walk) : Prop where
  scopes : w'.scopeStack = w.scopeStack
  blocks : w'.blockStack = w.blockStack
  definitions : w'.openDefinitions = w.openDefinitions
  event : w'.openEvent = w.openEvent
  /-- A table is being defined if one was, and it is the same table with the same buffer. -/
  table : (w'.tableDefinition.map fun d => (d.table, d.buffer)) =
    w.tableDefinition.map fun d => (d.table, d.buffer)
  qualifiers : w'.qualifiers = w.qualifiers.erase n
  hints : w'.hints = w.hints.erase n

section BalancedVisit

variable {env : Env} {notes : Annotations} {n : NodeId} {w w' : Walk}

theorem Awaits.erase (h : Awaits env n w) : w.qualifiers.erase n = {} ∧ w.hints.erase n = {} :=
  ⟨SideTable.erase_eq_empty fun m hm => h.told m fun heq => absurd heq hm,
    SideTable.erase_eq_empty fun m hm => h.hinted m fun heq => absurd heq hm⟩

theorem Awaits.balanced (h : Awaits env n w) (hs : Sound w) (hok : visit env n w = .ok () w') :
    BalancedVisit n w w' := by
  obtain ⟨visited, -⟩ := (ends_visit env n hs).ok hok
  obtain ⟨qualifiers, hints⟩ := (visit_quiet env n hs h hok).of_tables
  have frame := visited.frame
  exact ⟨congrArg Frame.scopes frame, congrArg Frame.blocks frame,
    congrArg Frame.definitions frame, congrArg Frame.event frame, congrArg Frame.table frame,
    qualifiers.trans h.erase.1.symm, hints.trans h.erase.2.symm⟩

theorem quiet_start : Quiet (start env notes) := ⟨fun _ => rfl, fun _ => rfl⟩

theorem unitSteps_hint : ∀ s ∈ unitSteps env, s.hint ≠ none →
    env.tree.kind s.child.val = .field := by
  intro s hs hne
  obtain ⟨c, -, rfl⟩ := List.mem_map.1 hs
  exact absurd rfl hne

theorem awaits_of_mem_unitEntries {e : NodeId × Walk} (he : e ∈ unitEntries env notes) :
    Awaits env e.1 e.2 :=
  (amid_start env notes).awaits_of_mem quiet_start unitSteps_hint
    (fun c _ _ hs awaits => entries_awaits env c hs awaits) e he

theorem quiet_visitUnit (hok : visitUnit env (start env notes) = .ok () w) : Quiet w := by
  rw [visitUnit_eq] at hok
  exact (amid_start env notes).quiet quiet_start unitSteps_hint
    (fun c _ _ _ hs awaits hok => visit_quiet env c hs awaits hok) hok

end BalancedVisit

/-- The balance of a walk, whatever is written on the tree. A visit that succeeds leaves the stacks,
the open event and the table being defined as it found them, and takes its own entries out of the
side tables. Whenever a node is entered, no other node has an entry there, and when it has been
entered there is none left. So when a walk succeeds, only the root is open and the side tables are
empty. -/
theorem walkUnit_balanced (env : Env) (notes : Annotations) :
    (∀ n w w', (n, w) ∈ unitEntries env notes → visit env n w = .ok () w' → BalancedVisit n w w') ∧
    (∀ n w plan v, (n, w) ∈ unitEntries env notes → enter env n w = .ok plan v →
      w.qualifiers.erase n = {} ∧ w.hints.erase n = {} ∧ v.qualifiers = {} ∧ v.hints = {}) ∧
    ∀ w, walkUnit env (start env notes) = .ok () w →
      w.scopeStack = [rootScope] ∧ w.blockStack = [⟨0⟩] ∧ w.openDefinitions = [] ∧
        w.openEvent = none ∧ w.tableDefinition = none ∧ w.qualifiers = {} ∧ w.hints = {} := by
  refine ⟨fun n w w' he hok => ?_, fun n w plan v he henter => ?_, fun w hok => ?_⟩
  · exact (awaits_of_mem_unitEntries he).balanced (sound_of_mem_unitEntries he) hok
  · have awaits := awaits_of_mem_unitEntries he
    obtain ⟨qualifiers, hints⟩ := awaits.erase
    exact ⟨qualifiers, hints, (awaits.enter (sound_of_mem_unitEntries he) henter).of_tables⟩
  · rw [walkUnit_eq] at hok
    obtain ⟨visited, -⟩ := (ends_visitUnit env notes).ok hok
    have frame := visited.frame.trans (frame_start env notes)
    refine ⟨congrArg Frame.scopes frame, congrArg Frame.blocks frame,
      congrArg Frame.definitions frame, congrArg Frame.event frame, ?_,
      (quiet_visitUnit hok).of_tables⟩
    simpa [Walk.frame] using congrArg Frame.table frame

/-- A temp-table `tt` with a field `f`, and a procedure that asks for a record of it and names the
field in an EXCEPT list. -/
def exceptSample : ParseTree := .ofRows [
  (0, .defineTempTable, ""), (1, .identifier, "tt"), (1, .tableField, ""), (3, .identifier, "f"),
  (0, .procedureStatement, ""), (5, .identifier, "p"), (5, .recordFunction, ""),
  (7, .record, "tt"), (5, .exceptPhrase, ""), (9, .field, "f")]

/-- In the sample, the field takes its qualifier and its hint inside the procedure, and nothing is
left in the end. -/
theorem walkUnit_balanced_sample :
    let env : Env := { tree := exceptSample }
    let notes : Annotations := .blank exceptSample.size
    (∃ v v', ((⟨10⟩, v) : NodeId × Walk) ∈ unitEntries env notes ∧
      visit env ⟨10⟩ v = .ok () v' ∧ v.scopeStack = [⟨1⟩, rootScope] ∧
      v.qualifiers.find? ⟨10⟩ = some .symbol ∧ v.hints.find? ⟨10⟩ = some .last ∧
      BalancedVisit ⟨10⟩ v v') ∧
    ∃ w, walkUnit env (start env notes) = .ok () w ∧ w.scopeStack = [rootScope] ∧
      w.qualifiers = {} ∧ w.hints = {} := by
  intro env notes
  obtain ⟨visits, -, walks⟩ := walkUnit_balanced env notes
  constructor
  · have met : (unitEntries env notes).any (fun e => e.1 = ⟨10⟩ &&
        e.2.scopeStack = [⟨1⟩, rootScope] && e.2.qualifiers.find? ⟨10⟩ = some .symbol &&
        e.2.hints.find? ⟨10⟩ = some .last && ((visit env ⟨10⟩).run' e.2).isSome) := by
      decide +kernel
    obtain ⟨⟨m, v⟩, he, hv⟩ := List.any_eq_true.1 met
    simp only [Bool.and_eq_true, decide_eq_true_eq] at hv
    obtain ⟨⟨⟨⟨rfl, hscope⟩, hqualifier⟩, hhint⟩, hvisit⟩ := hv
    obtain ⟨_, v', hok⟩ := exists_ok_of_run' hvisit
    exact ⟨v, v', he, hok, hscope, hqualifier, hhint, visits _ _ _ he hok⟩
  · obtain ⟨_, w, hok⟩ : ∃ a w, walkUnit env (start env notes) = .ok a w :=
      exists_ok_of_run' (by decide +kernel)
    obtain ⟨scopes, -, -, -, -, tables⟩ := walks w hok
    exact ⟨w, hok, scopes, tables⟩

end Walk

end AblResolve
