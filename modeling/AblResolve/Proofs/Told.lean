import AblResolve.Proofs.Entries
/-!
What nodes are told about their use. A node speaks to a child just before it visits it, and a child
that asks takes what it was told when it is entered. So when a node is visited, nobody else has
been told anything, and when the visit is over, nobody has.
-/
namespace AblResolve.Walk

/-- Nobody has been told anything. -/
def NoneTold (w : Walk) : Prop := ∀ m, w.Untold m

/-- Nobody but node `n` has been told anything, and not even it unless it asks. -/
def OnlyTold (env : Env) (n : NodeId) (w : Walk) : Prop :=
  ∀ m, (m = n → (env.tree.kind n).consumesQualifier = false) → w.Untold m

theorem size_qualifiers {w : Walk} (none : NoneTold w) : w.qualifiers.size = 0 := by
  unfold NoneTold Untold SideTable.find? at none
  cases hentries : w.qualifiers.entries with
  | nil => simp [SideTable.size, hentries]
  | cons e rest => simpa [hentries] using none e.1

section Told

variable {env : Env} {n c m : NodeId} {w₀ w w' : Walk}

theorem Performed.untold {actions : List Action} (h : Performed env n w actions w')
    (untold : w.Untold m) : w'.Untold m := by
  induction h with
  | nil => exact untold
  | cons first _ ih =>
    cases first with
    | runs _ runs => exact ih (runs.untold untold)
    | bind | unused | use => exact ih untold

theorem Admitted.noneTold {plan : Plan env.tree n} (h : Admitted env n w plan w')
    (told : OnlyTold env n w) : NoneTold w' := by
  intro m
  by_cases hm : m = n → (env.tree.kind n).consumesQualifier = false
  · exact h.enters.untold (told m hm)
  · obtain ⟨rfl, asks⟩ := Classical.not_imp.1 hm
    exact h.taken (eq_true_of_ne_false asks)

theorem Readies.onlyTold (h : Readies env n c w w') (none : NoneTold w) : OnlyTold env c w' := by
  obtain ⟨v, tells, runs⟩ := h
  exact fun m hm => runs.untold (tells.untold hm (none m))

theorem Tour.noneTold {steps : List (Step env.tree n)} (tour : Tour env n w₀ steps w w')
    (none : NoneTold w)
    (visits : ∀ c ∈ env.tree.children n, ∀ v v', Sound v → OnlyTold env c v →
      visit env c v = .ok () v' → NoneTold v') : NoneTold w' := by
  induction tour with
  | leave runs => exact fun m => runs.untold (none m)
  | step readies began hvisit visited after uses once field entries idle listed tour ih =>
    have below := visits _ began.child _ _ began.sound (readies.onlyTold none) hvisit
    exact ih fun m => after.untold (below m)

end Told

theorem visit_noneTold (env : Env) (n : NodeId) {w w' : Walk} (hs : Sound w)
    (told : OnlyTold env n w) (hok : visit env n w = .ok () w') : NoneTold w' := by
  obtain ⟨plan, v, -, admitted, tour⟩ := visit_tour hs hok
  exact tour.noneTold (admitted.noneTold told) fun c hc _ _ hs told hok =>
    visit_noneTold env c hs told hok
termination_by env.tree.size - n.val
decreasing_by
  have := ParseTree.lt_of_mem_children hc
  omega

end AblResolve.Walk
