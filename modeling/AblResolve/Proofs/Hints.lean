import AblResolve.Proofs.FieldLists
import AblResolve.Proofs.Qualifiers
/-!
The hints that fields are given. A node is entered as the child of a step of its parent's plan, and
the hint of the step reaches it. Lists of fields give hints to all their fields: most of them to the
record before the list, the pairs of RELATION-FIELDS to the last two records by turns. When a hint
is followed, it points to the buffer of the record that it recalls, if there is such a record.
-/
namespace AblResolve.Walk

open UnitIndex ParseTree

variable {env : Env} {n m : NodeId} {w₀ w w' : Walk} {es es' : List (NodeId × Walk)}
  {e : NodeId × Walk}

/-! ### From a plan to the child -/

/-- One of the steps visits the node, and the hint of the step has reached it. -/
def Planned (steps : List (Step env.tree n)) (e : NodeId × Walk) : Prop :=
  ∃ step ∈ steps, step.child.val = e.1 ∧ ∀ h, step.hint = some h → e.2.hints.find? e.1 = some h

/-- The node is visited by the plan of one of the nodes in `es`. -/
def Instructed (env : Env) (es : List (NodeId × Walk)) (e : NodeId × Walk) : Prop :=
  ∃ p v, (p, v) ∈ es ∧ ∃ (plan : Plan env.tree p) (v' : Walk), enter env p v = .ok plan v' ∧
    Planned plan.steps e

theorem Instructed.mono (h : Instructed env es e) (sub : es ⊆ es') : Instructed env es' e := by
  obtain ⟨p, v, parent, planned⟩ := h
  exact ⟨p, v, sub parent, planned⟩

/-- Each node that the visit of `n` enters, `n` itself apart, is visited by the plan of another. -/
def Instructs (env : Env) (n : NodeId) (w _ : Walk) : Prop :=
  ∀ e ∈ entries env n w, e = (n, w) ∨ Instructed env (entries env n w) e

theorem prepare_hint {step : Step env.tree n} {h : TableHint}
    (hok : prepare env step w = .ok () w') (given : step.hint = some h) :
    w'.hints.find? step.child.val = some h := by
  have last : ∀ {v}, hint step.child.val h v = .ok () w' →
      w'.hints.find? step.child.val = some h := by
    rintro v ⟨⟩
    exact (SideTable.find?_set _ _ _ _).trans (if_pos rfl)
  unfold prepare at hok
  cases hq : step.qualifier with
  | none =>
    rw [hq, given] at hok
    exact last hok
  | some q =>
    rw [hq] at hok
    obtain ⟨_, v, -, hhint⟩ := bind_ok.1 hok
    rw [given] at hhint
    exact last hhint

theorem Runs.find?_hints (h : Runs env n w w') (hm : m ≠ n) :
    w'.hints.find? m = w.hints.find? m := by
  induction h with
  | refl => rfl
  | tail _ step ih =>
    rw [← ih]
    rcases step with move | turn
    · cases move with
      | takeHint => rw [SideTable.find?_erase, if_neg hm.symm]
      | _ => rfl
    · cases turn <;> rfl

theorem Done.find?_hints {as : List Action} (h : Done env n w as w') (hm : m ≠ n) :
    w'.hints.find? m = w.hints.find? m := by
  induction h with
  | nil => rfl
  | cons _ _ performs _ _ ih =>
    refine ih.trans ?_
    cases performs with
    | runs _ runs => exact runs.find?_hints hm
    | bind | unused | use => rfl

theorem Rounds.instructs {steps : List (Step env.tree n)}
    (h : Rounds env n w₀ (Instructs env) steps w w') :
    ∀ e ∈ stepsEntries env steps w,
      Planned steps e ∨ Instructed env (stepsEntries env steps w) e := by
  induction h with
  | nil => simp [stepsEntries, collect]
  | cons sound prepared tells before began visit visited child after once run others ih =>
    rename_i step rest w w₁ w₂ w₃ w₄ w'
    intro e he
    rw [stepsEntries_of_ok run, Step.entries_of_done prepared before] at he ⊢
    rcases List.mem_append.1 he with own | later
    · rcases child e own with rfl | instructed
      · have apart : step.child.val ≠ n := ne_of_mem_children step.child.property
        refine .inl ⟨step, List.mem_cons_self, rfl, fun h given => ?_⟩
        rw [before.find?_hints apart, prepare_hint prepared given]
      · exact .inr (instructed.mono (List.subset_append_left _ _))
    · refine (ih e later).imp ?_ (·.mono (List.subset_append_right _ _))
      rintro ⟨s, hs, planned⟩
      exact ⟨s, List.mem_cons_of_mem _ hs, planned⟩

theorem visit_instructs (env : Env) (n : NodeId) {w w' : Walk} (hs : Sound w)
    (hok : visit env n w = .ok () w') : Instructs env n w w' := by
  refine visit_rounds (P := Instructs env) ?_ n hs hok
  intro n w plan v v' w' hs henter admitted rounds done visited e he
  rw [entries_of_ok henter] at he ⊢
  rcases List.mem_cons.1 he with rfl | he
  · exact .inl rfl
  · refine .inr ?_
    rcases rounds.instructs e he with planned | instructed
    · exact ⟨n, w, List.mem_cons_self, plan, v, henter, planned⟩
    · exact instructed.mono (List.subset_cons_self _ _)

/-- On a walk that succeeds, a node is visited by the plan of its parent, unless that is the
root. -/
theorem visitUnit_planned {notes : Annotations} {p : NodeId}
    (hok : visitUnit env (start env notes) = .ok () w) (he : e ∈ unitEntries env notes)
    (parent : env.tree.parent? e.1 = some p) (inner : p ≠ root) :
    ∃ v, (p, v) ∈ unitEntries env notes ∧ ∃ (plan : Plan env.tree p) (v' : Walk),
      enter env p v = .ok plan v' ∧ Planned plan.steps e := by
  have rounds := visitUnit_rounds (fun c _ v v' hs hok => visit_instructs env c hs hok) hok
  have above : ∀ {q} {steps : List (Step env.tree q)}, Planned steps e → q = p := by
    rintro q steps ⟨step, -, child, -⟩
    have other := parent?_of_mem_children step.child.property
    rw [child, parent] at other
    exact (Option.some.inj other).symm
  rcases rounds.instructs e he with planned | ⟨q, v, hq, plan, v', henter, planned⟩
  · exact absurd (above planned).symm inner
  · cases above planned
    exact ⟨v, hq, plan, v', henter, planned⟩

/-! ### The hints of a plan -/

/-- The hints that the fields in RELATION-FIELDS are given by turns. -/
def pairHint (i : Nat) : TableHint := if i % 2 = 0 then .previous else .last

theorem pairHint_succ (i : Nat) :
    (if pairHint i = .previous then TableHint.last else .previous) = pairHint (i + 1) := by
  unfold pairHint
  rcases Nat.mod_two_eq_zero_or_one i with h | h
  · simp [h, show (i + 1) % 2 = 1 by omega]
  · simp [h, show (i + 1) % 2 = 0 by omega]

theorem hint_of_mem_relationSteps {t : ParseTree} {cs : List (t.Child n)} {k : Nat} {c : t.Child n}
    {step : Step t n} (mem : step ∈ relationSteps t n (pairHint k) cs) (child : step.child = c)
    (kind : t.kind c.val = .field) : ∃ i, (cs.filter fun c => t.kind c.val = .field)[i]? = some c ∧
      step.hint = some (pairHint (k + i)) := by
  induction cs generalizing k with
  | nil => cases mem
  | cons d rest ih =>
    rw [relationSteps] at mem
    split at mem
    · rename_i field
      rw [List.filter_cons_of_pos (by simpa using field)]
      rcases List.mem_cons.1 mem with rfl | mem
      · exact ⟨0, congrArg some child, rfl⟩
      · rw [pairHint_succ] at mem
        obtain ⟨i, hi, given⟩ := ih mem
        exact ⟨i + 1, hi, by rw [given, Nat.add_right_comm, Nat.add_assoc]⟩
    · rename_i other
      rw [List.filter_cons_of_neg (by simpa using other)]
      rcases List.mem_cons.1 mem with rfl | mem
      · cases child
        exact absurd kind other
      · exact ih mem

/-- The field at position `i` among those in RELATION-FIELDS. -/
theorem hint_of_mem_relationPlan {i : Nat} {step : Step env.tree n}
    (mem : step ∈ (relationPlan env n).steps)
    (position : ((env.tree.children n).filter (env.tree.kind · = .field))[i]? =
      some step.child.val) : step.hint = some (pairHint i) := by
  have kind : env.tree.kind step.child.val = .field := by
    simpa using (List.mem_filter.1 (List.mem_of_getElem? position)).2
  obtain ⟨j, hj, given⟩ := hint_of_mem_relationSteps (k := 0) mem rfl kind
  have fields : (env.tree.children n).filter (env.tree.kind · = .field) =
      ((env.tree.childList n).filter fun c => env.tree.kind c.val = .field).map Subtype.val := by
    conv_lhs => rw [← List.attach_map_subtype_val (env.tree.children n)]
    exact List.filter_map
  have position' : ((env.tree.children n).filter (env.tree.kind · = .field))[j]? =
      some step.child.val := by
    rw [fields, List.getElem?_map, hj]
    rfl
  have nodup := (env.tree.nodup_children n).filter (env.tree.kind · = .field)
  have lt : i < ((env.tree.children n).filter (env.tree.kind · = .field)).length :=
    (List.getElem?_eq_some_iff.1 position).1
  rw [given, Nat.zero_add, (List.getElem?_inj lt nodup).1 (position.trans position'.symm)]

theorem hint_of_enterFieldList {q : Qualifier} {plan : Plan env.tree n} {step : Step env.tree n}
    (hok : enterFieldList env n q w = .ok plan w') (last : w.lastTable.isSome)
    (mem : step ∈ plan.steps) (kind : env.tree.kind step.child.val = .field) :
    step.hint = some .last := by
  unfold enterFieldList at hok
  obtain ⟨v, w₁, hget, hpure⟩ := bind_ok.1 hok
  cases hget
  cases hpure
  obtain ⟨c, -, rfl⟩ := List.mem_map.1 mem
  split at kind
  · rw [if_pos ‹_›, if_pos last]
  · exact absurd kind ‹_›

/-! ### The record that a hint recalls -/

/-- When a record has been entered that a hint recalls, the hint points to a buffer. -/
theorem Trail.hinted_of_recalled {rs : List NodeId} (trail : Trail env w₀ es rs w) (hs : Sound w₀)
    (h : TableHint) (recalls : (recalled env es h).isSome) : (w.hinted? h).isSome := by
  induction trail generalizing h with
  | start => cases h <;> cases recalls
  | @enter es rs n w w' plan trail entered ih =>
    have admitted := (ends_enter env n (trail.sound hs)).ok entered
    by_cases kind : env.tree.kind n = .record
    · have newest := (records_concat env es (n, w)).trans (if_pos kind)
      obtain ⟨-, v, moves, refer⟩ := admitted.record kind
      cases refer with
      | record =>
        cases h with
        | any => cases recalls
        | last => rfl
        | previous =>
          rw [recalled, newest] at recalls
          have before := ih .last recalls
          rwa [← Moves.hinted? env n moves] at before
    · have same := (records_concat env es (n, w)).trans (if_neg kind)
      rw [Enters.hinted? admitted.enters kind]
      refine ih h ?_
      cases h with
      | any => cases recalls
      | last | previous => simpa [recalled, same] using recalls
  | tell _ tells ih =>
    obtain ⟨qualifiers, hints, rfl⟩ := tells.eq
    cases h <;> exact ih _ recalls
  | run _ runs _ ih =>
    rw [runs.hinted?]
    exact ih h recalls
  | use | bind =>
    rename_i ih
    cases h <;> exact ih _ recalls

end AblResolve.Walk
