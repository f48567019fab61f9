import AblResolve.Proofs.Settled
/-!
The trail of a walk that succeeds: all that it does, one thing after the other. `Tour` follows the
tree and knows what happens at one node; a trail knows what has happened before, so that an
invariant of the whole walk is proved by one induction over it.
-/
namespace AblResolve.Walk

open UnitIndex ParseTree

/-- The trail of a walk from state `w₀` on. The nodes in `es` have been entered one after the
other, each in the state that is given with it, and the records in `rs` have been bound to blocks
by the lists that they stand in. -/
inductive Trail (env : Env) (w₀ : Walk) : List (NodeId × Walk) → List NodeId → Walk → Prop
  | start : Trail env w₀ [] [] w₀
  | enter {es : List (NodeId × Walk)} {rs : List NodeId} {n : NodeId} {w w' : Walk}
      {plan : Plan env.tree n} (trail : Trail env w₀ es rs w)
      (entered : Walk.enter env n w = .ok plan w') : Trail env w₀ (es ++ [(n, w)]) rs w'
  | tell {es : List (NodeId × Walk)} {rs : List NodeId} {c : NodeId} {w w' : Walk}
      (trail : Trail env w₀ es rs w) (tells : Tells env c w w') : Trail env w₀ es rs w'
  | run {es : List (NodeId × Walk)} {rs : List NodeId} {n : NodeId} {w w' : Walk}
      (trail : Trail env w₀ es rs w) (runs : Runs env n w w')
      (field : env.tree.kind n = .field → w'.notes = w.notes) : Trail env w₀ es rs w'
  | use {es : List (NodeId × Walk)} {rs : List NodeId} {w : Walk} {s : SymbolId} (q : Qualifier)
      (trail : Trail env w₀ es rs w) (found : s.val < w.index.symbols.size) :
      Trail env w₀ es rs { w with index := w.index.counted s q }
  | bind {es : List (NodeId × Walk)} {rs : List NodeId} {n r : NodeId} {b : SymbolId} {v w : Walk}
      (trail : Trail env w₀ es rs w) (entry : (r, v) ∈ es) (block : w.block = v.block)
      (binds : BindsStrongly env n w r b) : Trail env w₀ es (rs ++ [r]) (w.boundStrongly r b)

namespace Trail

variable {env : Env} {w₀ w w' : Walk} {es es' : List (NodeId × Walk)} {rs rs' : List NodeId}

theorem sound (h : Trail env w₀ es rs w) (hs : Sound w₀) : Sound w := by
  induction h with
  | start => exact hs
  | enter _ entered ih => exact ((ends_enter env _ ih).ok entered).enters.sound ih
  | tell _ tells ih => exact tells.sound ih
  | run _ runs _ ih => exact runs.sound ih
  | use q _ _ ih => exact ih.counted _ q
  | bind _ _ _ binds ih => exact binds.sound ih

/-- One trail after the other. -/
theorem append (h : Trail env w₀ es rs w) (k : Trail env w es' rs' w') :
    Trail env w₀ (es ++ es') (rs ++ rs') w' := by
  induction k with
  | start => simpa using h
  | enter _ entered ih =>
    rw [← List.append_assoc]
    exact ih.enter entered
  | tell _ tells ih => exact ih.tell tells
  | run _ runs field ih => exact ih.run runs field
  | use q _ found ih => exact ih.use q found
  | bind _ entry block binds ih =>
    rw [← List.append_assoc]
    exact ih.bind (List.mem_append_right _ entry) block binds

/-- The trail up to the moment at which a node is entered. -/
theorem before {e : NodeId × Walk} (h : Trail env w₀ (es ++ e :: es') rs w) :
    ∃ rs, Trail env w₀ es rs e.2 := by
  generalize hall : es ++ e :: es' = all at h
  induction h generalizing es' with
  | start => simp at hall
  | enter trail entered ih =>
    rcases List.eq_nil_or_concat es' with rfl | ⟨front, last, rfl⟩
    · obtain ⟨rfl, rfl⟩ := List.append_inj' hall rfl |>.imp id List.singleton_inj.1
      exact ⟨_, trail⟩
    · rw [List.concat_eq_append, ← List.cons_append, ← List.append_assoc] at hall
      exact ih (List.append_inj' hall rfl).1
  | tell _ _ ih | run _ _ _ ih | use _ _ _ ih | bind _ _ _ _ ih => exact ih hall

/-- Every node on a trail has been entered. -/
theorem entered (h : Trail env w₀ es rs w) : ∀ e ∈ es, Entered env e := by
  induction h with
  | start => simp
  | enter _ entered ih =>
    intro e he
    rcases List.mem_append.1 he with he | he
    · exact ih e he
    · cases List.mem_singleton.1 he
      exact ⟨_, _, entered⟩
  | tell _ _ ih | run _ _ _ ih | use _ _ _ ih | bind _ _ _ _ ih => exact ih

end Trail

/-! ### The trail of a tour -/

section Tour

variable {env : Env} {n : NodeId} {w₀ w w' : Walk} {es : List (NodeId × Walk)}
  {rs : List NodeId} {steps : List (Step env.tree n)}

/-- What is done before the visit of a child is on the trail. -/
theorem Readies.trail {c : NodeId} (h : Readies env n c w w')
    (field : env.tree.kind n = .field → w'.notes = w.notes) : Trail env w [] [] w' := by
  obtain ⟨v, tells, runs⟩ := h
  refine (Trail.start.tell tells).run runs fun hfield => ?_
  obtain ⟨qualifiers, hints, rfl⟩ := tells.eq
  exact field hfield

theorem Performs.trail {action : Action} (h : Performs env n w action w')
    (hn : env.tree.kind n ≠ .blockFor) (hfield : env.tree.kind n ≠ .field) :
    Trail env w [] [] w' := by
  cases h with
  | runs _ runs => exact Trail.start.run runs fun h => absurd h hfield
  | bind binds => exact absurd binds.kind hn
  | unused => exact .start
  | use _ found => exact Trail.start.use _ found

theorem Performed.trail {actions : List Action} (h : Performed env n w actions w')
    (hn : env.tree.kind n ≠ .blockFor) (hfield : env.tree.kind n ≠ .field) :
    Trail env w [] [] w' := by
  induction h with
  | nil => exact .start
  | cons first _ ih => exact (first.trail hn hfield).append ih

/-- What is done after the visit of a child, if it is not a record in a list of buffers. -/
theorem Performed.trail_child {c : NodeId} {actions : List Action}
    (h : Performed env n w actions w') (hn : env.tree.kind n ≠ .blockFor)
    (uses : actions.filter (·.isUse) = handleUses env n c)
    (field : env.tree.kind n = .field → w'.notes = w.notes) : Trail env w [] [] w' := by
  by_cases hfield : env.tree.kind n = .field
  · have quiet : ∀ a ∈ actions, a.isUse = false := by
      rw [handleUses_eq_nil (by simp [hfield, NodeKind.isHandle])] at uses
      simpa using uses
    exact Trail.start.run (h.runs_of_kind hn quiet) field
  · exact h.trail hn hfield

/-- The records among the nodes in `es` that stand in a list of buffers have been bound. Those of a
list that is the root of the tree are used like any other record instead. -/
def Listed (env : Env) (es : List (NodeId × Walk)) (rs : List NodeId) : Prop :=
  ∀ r v p, (r, v) ∈ es → env.tree.kind r = .record → env.tree.parent? r = some p →
    env.tree.kind p = .blockFor → r ∈ rs ∨ v.qualifierAt r = .ref

theorem Listed.append {es es' : List (NodeId × Walk)} {rs rs' : List NodeId}
    (h : Listed env es rs) (h' : Listed env es' rs') : Listed env (es ++ es') (rs ++ rs') := by
  intro r v p he hr hp hkind
  rcases List.mem_append.1 he with he | he
  · exact (h r v p he hr hp hkind).imp_left (List.mem_append_left _)
  · exact (h' r v p he hr hp hkind).imp_left (List.mem_append_right _)

theorem entries_eq_cons (env : Env) (n : NodeId) (w : Walk) :
    entries env n w = (n, w) :: (entries env n w).tail := by
  rw [entries]
  rfl

theorem Untold.qualifierAt {m : NodeId} (h : w.Untold m) : w.qualifierAt m = .ref := by
  rw [Walk.qualifierAt, h]
  rfl

theorem Performed.bind_ok {r : NodeId} (h : Performed env n w [.bindStrongly r] w') :
    ∃ b, BindsStrongly env n w r b ∧ w' = w.boundStrongly r b := by
  cases h with
  | cons first rest =>
    cases rest
    cases first with
    | runs quiet => cases quiet
    | bind binds => exact ⟨_, binds, rfl⟩

/-- What is done after the visit of a child binds the child if it is a record in a list of
buffers. -/
theorem Performed.trail_after {step : Step env.tree n} {w₀ w₂ : Walk} {es : List (NodeId × Walk)}
    {rs : List NodeId} (h : Performed env n w step.after w') (before : Trail env w₀ es rs w)
    (entered : (step.child.val, w₂) ∈ es) (block : w.block = w₂.block)
    (uses : step.after.filter (·.isUse) = handleUses env n step.child.val)
    (field : env.tree.kind n = .field → w'.notes = w.notes)
    (listed : env.tree.kind n = .blockFor → step = .plain step.child ∨
      env.tree.kind step.child.val = .record ∧ step.after = [.bindStrongly step.child.val]) :
    ∃ bs, Trail env w₀ es (rs ++ bs) w' ∧
      (env.tree.kind n = .blockFor → step.child.val ∈ bs ∨ step = .plain step.child) := by
  by_cases hn : env.tree.kind n = .blockFor
  · rcases listed hn with hplain | ⟨-, hafter⟩
    · rw [hplain] at h
      cases h
      exact ⟨[], by simpa using before, fun _ => .inr hplain⟩
    · rw [hafter] at h
      obtain ⟨b, binds, rfl⟩ := h.bind_ok
      exact ⟨[step.child.val], before.bind (v := w₂) entered block binds, fun _ => .inl (by simp)⟩
  · refine ⟨[], ?_, fun h => absurd h hn⟩
    simpa using before.append (h.trail_child hn uses field)

theorem Tour.trail (tour : Tour env n w₀ steps w w') (none : NoneTold w)
    (visits : ∀ c ∈ env.tree.children n, ∀ v v', Sound v → OnlyTold env c v →
      visit env c v = .ok () v' → ∃ rs, Trail env v (entries env c v) rs v' ∧
        Listed env (entries env c v).tail rs) :
    ∃ rs, Trail env w (stepsEntries env steps w) rs w' ∧
      Listed env (stepsEntries env steps w) rs := by
  induction tour with
  | leave runs field =>
    exact ⟨[], Trail.start.run runs field, by simp [Listed, stepsEntries, collect]⟩
  | step readies began hvisit visited after uses once field hentries idle listed tour ih =>
    rename_i step rest w w₁ w₂ w₃ w'
    have told := readies.onlyTold none
    have none₂ := visit_noneTold env _ began.sound told hvisit
    obtain ⟨rs₁, trail₁, listed₁⟩ :=
      visits _ step.child.property w₁ w₂ began.sound told hvisit
    obtain ⟨rs₂, trail₂, listed₂⟩ := ih fun m => after.untold (none₂ m)
    have ready : Trail env w (entries env step.child.val w₁) rs₁ w₂ :=
      (readies.trail fun h => (field h).1).append trail₁
    have entered : (step.child.val, w₁) ∈ entries env step.child.val w₁ := by
      rw [entries_eq_cons]
      exact List.mem_cons_self
    obtain ⟨bs, done, own⟩ := after.trail_after ready entered (congrArg Frame.block visited.frame)
      uses (fun h => (field h).2) listed
    refine ⟨_, hentries ▸ done.append trail₂, hentries ▸ Listed.append ?_ listed₂⟩
    intro r v p he hr hp hkind
    rw [entries_eq_cons] at he
    rcases List.mem_cons.1 he with he | he
    · cases he
      rw [parent?_of_mem_children step.child.property] at hp
      cases hp
      rcases own hkind with h | hplain
      · exact .inl (List.mem_append_right _ h)
      · exact .inr (idle hplain ▸ (none _).qualifierAt)
    · exact (listed₁ r v p he hr hp hkind).imp_left (List.mem_append_left _)

end Tour

theorem visit_trail (env : Env) (n : NodeId) {w w' : Walk} (hs : Sound w)
    (told : OnlyTold env n w) (hok : visit env n w = .ok () w') :
    ∃ rs, Trail env w (entries env n w) rs w' ∧ Listed env (entries env n w).tail rs := by
  obtain ⟨plan, v, henter, admitted, tour⟩ := visit_tour hs hok
  obtain ⟨rs, trail, listed⟩ := tour.trail (admitted.noneTold told) fun c hc _ _ hs told hok =>
    visit_trail env c hs told hok
  rw [entries_of_ok henter]
  exact ⟨rs, (Trail.start.enter henter).append trail, listed⟩
termination_by env.tree.size - n.val
decreasing_by
  have := lt_of_mem_children hc
  omega

theorem nodup_concat {es : List (NodeId × Walk)} {e : NodeId × Walk}
    (h : ((es ++ [e]).map (·.1)).Nodup) : (es.map (·.1)).Nodup ∧ e.1 ∉ es.map (·.1) := by
  rw [List.map_append, List.nodup_append] at h
  exact ⟨h.1, fun hmem => h.2.2 _ hmem _ (List.mem_singleton_self _) rfl⟩

/-! ### The trail of a unit -/

section Unit

variable {env : Env} {notes : Annotations} {w : Walk}

theorem visitUnit_trail (hok : visitUnit env (start env notes) = .ok () w) :
    ∃ rs, Trail env (start env notes) (unitEntries env notes) rs w ∧
      Listed env (unitEntries env notes) rs :=
  (tour_unit env notes hok).trail (fun _ => rfl) fun c _ _ _ hs told hok =>
    visit_trail env c hs told hok

end Unit

end AblResolve.Walk
