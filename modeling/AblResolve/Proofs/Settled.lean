import AblResolve.Proofs.Unit
/-!
What is known about names. On a tree on which nothing is written, nothing is known about a name
before its node is entered. What is written there when the walk finds out what the name stands for
is still there when the walk is over, since every node is visited at most once and no other visit
says anything about it.
-/
namespace AblResolve.Walk

open UnitIndex ParseTree

/-! ### Before a node is entered -/

/-- Nothing is known about the names at and below node `n`, unless it is a member that the node
above has looked up. -/
def Fresh (env : Env) (n : NodeId) (w : Walk) : Prop :=
  ∀ m, env.tree.Within n m → m ≠ n ∨ env.tree.kind m ≠ .identifier →
    meaning (w.notes.get m) = (none, none, none)

section Fresh

variable {env : Env} {n c : NodeId} {w w' : Walk}

theorem Fresh.symbol {m : NodeId} (h : Fresh env n w) (hwithin : env.tree.Within n m)
    (hm : m ≠ n ∨ env.tree.kind m ≠ .identifier) : (w.notes.get m).symbol = none :=
  congrArg (·.1) (h m hwithin hm)

theorem Began.fresh (h : Began env n w c w') (fresh : Fresh env n w) : Fresh env c w' := by
  intro m hwithin hm
  rw [h.below m hwithin hm]
  exact fresh m ((within_of_mem_children h.child).trans hwithin) (.inl (hwithin.ne_parent h.child))

theorem Began.fresh_unit {size : Nat} (h : Began env root (start env (.blank size)) c w') :
    Fresh env c w' := by
  intro m hwithin hm
  have hroot := (hwithin.ne_parent h.child).symm
  rw [h.below m hwithin hm, start, Annotations.get_update_of_ne hroot, Annotations.get_blank]
  rfl

theorem fresh_of_mem_unitEntries {size : Nat} {e : NodeId × Walk}
    (he : e ∈ unitEntries env (.blank size)) : Sound e.2 ∧ Fresh env e.1 e.2 :=
  unitEntries_keep env (.blank size) (P := Fresh env) Began.fresh_unit
    (fun fresh began => began.fresh fresh) e he

end Fresh

/-! ### After a node has been entered -/

/-- Entering node `n` says what the name on node `k` stands for: its own, or that of a member. -/
inductive Names (env : Env) (n : NodeId) : NodeId → Prop
  | own (kind : (env.tree.kind n).isName ∨ env.tree.kind n = .field)
      (apart : env.tree.kind n ≠ .identifier) : Names env n n
  | member {k : NodeId} (child : k ∈ env.tree.children n)
      (identifier : env.tree.kind k = .identifier) : Names env n k

section Visit

variable {env : Env} {n m k : NodeId} {w₀ w w' : Walk} {steps : List (Step env.tree n)}

theorem Names.of_record (h : env.tree.kind n = .record) : Names env n n :=
  .own (.inl (by simp [h])) (by simp [h])

theorem Names.of_field (h : env.tree.kind n = .field) : Names env n n :=
  .own (.inr h) (by simp [h])

theorem Names.within (h : Names env n k) : env.tree.Within n k := by
  cases h with
  | own => exact .refl n
  | member child => exact within_of_mem_children child

/-- A member has been looked up before it is visited, and the visit finds nothing to do. -/
theorem visit_identifier (h : env.tree.kind n = .identifier) (hok : visit env n w = .ok () w') :
    w' = w := by
  rw [visit, enter] at hok
  simp only [h] at hok
  cases hok
  rfl

/-- The steps of a plan say nothing about a name that is not below the children they visit. -/
theorem Tour.keep (tour : Tour env n w₀ steps w w')
    (hm : m ≠ n ∨ (env.tree.kind m).isName ∨ env.tree.kind m = .field)
    (apart : ∀ c ∈ targets steps, ¬ env.tree.Within c m ∨ m = c ∧ env.tree.kind c = .identifier) :
    meaning (w'.notes.get m) = meaning (w.notes.get m) := by
  have here : ∀ {v v'}, Local env n v v' → (env.tree.kind n = .field → v'.notes = v.notes) →
      meaning (v'.notes.get m) = meaning (v.notes.get m) := by
    intro v v' loc field
    rcases hm with hm | hm | hm
    · exact loc.meaning m (.inl hm)
    · exact loc.meaning m (.inr hm)
    · by_cases hmn : m = n
      · rw [field (hmn ▸ hm)]
      · exact loc.meaning m (.inl hmn)
  induction tour with
  | leave runs field => exact here runs.isLocal field
  | step readies began hvisit visited after uses once field entries idle listed tour ih =>
    rename_i step rest w w₁ w₂ w₃ w'
    have below : w₂.notes.get m = w₁.notes.get m := by
      rcases apart _ List.mem_cons_self with hwithin | ⟨-, hidentifier⟩
      · exact visited.apart m hwithin
      · rw [visit_identifier hidentifier hvisit]
    calc meaning (w'.notes.get m) = meaning (w₃.notes.get m) :=
          ih fun c hc => apart c (List.mem_cons_of_mem _ hc)
      _ = meaning (w₂.notes.get m) := here after.isLocal fun h => (field h).2
      _ = meaning (w₁.notes.get m) := by rw [below]
      _ = meaning (w.notes.get m) := here readies.isLocal fun h => (field h).1

/-- What was found when the nodes in `es` were entered still holds in state `w`. -/
def Settles (env : Env) (es : List (NodeId × Walk)) (w : Walk) : Prop :=
  ∀ m v plan v', (m, v) ∈ es → enter env m v = .ok plan v' → v'.index.Extends w.index ∧
    ∀ k, Names env m k → meaning (w.notes.get k) = meaning (v'.notes.get k)

theorem Tour.extends (tour : Tour env n w₀ steps w w') : w.index.Extends w'.index := by
  induction tour with
  | leave runs => exact runs.extends
  | step readies began hvisit visited after uses once field entries idle listed tour ih =>
    exact readies.isLocal.ext.trans (visited.ext.trans (after.isLocal.ext.trans ih))

theorem Tour.settles (tour : Tour env n w₀ steps w w')
    (visits : ∀ c ∈ env.tree.children n, ∀ v v', Sound v → visit env c v = .ok () v' →
      Settles env (entries env c v) v') :
    Settles env (stepsEntries env steps w) w' := by
  induction tour with
  | leave => simp [Settles, stepsEntries, collect]
  | step readies began hvisit visited after uses once field hentries idle listed tour ih =>
    rename_i step rest w w₁ w₂ w₃ w'
    intro m v plan v' he henter
    rw [hentries] at he
    rcases List.mem_append.1 he with he | he
    · have hchild := step.child.property
      obtain ⟨ext, settled⟩ := visits _ hchild w₁ w₂ began.sound hvisit m v plan v' he henter
      refine ⟨ext.trans (after.isLocal.ext.trans tour.extends), fun k names => ?_⟩
      have hwithin := (within_of_mem_entries he).trans names.within
      have hne := hwithin.ne_parent hchild
      have later : ∀ c ∈ targets rest,
          ¬ env.tree.Within c k ∨ k = c ∧ env.tree.kind c = .identifier := by
        intro c hc
        obtain ⟨s, hs, rfl⟩ := List.mem_map.1 hc
        refine .inl (hwithin.sibling hchild s.child.property ?_)
        rintro heq
        exact once (heq ▸ hc)
      calc meaning (w'.notes.get k) = meaning (w₃.notes.get k) := tour.keep (.inl hne) later
        _ = meaning (w₂.notes.get k) := after.isLocal.meaning k (.inl hne)
        _ = meaning (v'.notes.get k) := settled k names
    · exact ih m v plan v' he henter

/-- What a name stands for is found out only where its node, or the node of which it is a member,
is entered. -/
theorem Tour.names (tour : Tour env n w₀ steps w w') (hne : k ≠ n)
    (visits : ∀ c ∈ env.tree.children n, ∀ v v', Sound v → visit env c v = .ok () v' →
      meaning (v'.notes.get k) = meaning (v.notes.get k) ∨
        ∃ e ∈ entries env c v, Entered env e ∧ Names env e.1 k) :
    meaning (w'.notes.get k) = meaning (w.notes.get k) ∨
      ∃ e ∈ stepsEntries env steps w, Entered env e ∧ Names env e.1 k := by
  induction tour with
  | leave runs => exact .inl (runs.isLocal.meaning k (.inl hne))
  | step readies began hvisit visited after uses once field hentries idle listed tour ih =>
    rename_i step rest w w₁ w₂ w₃ w'
    rw [hentries]
    rcases ih with later | ⟨e, he, hnames⟩
    · rcases visits _ step.child.property w₁ w₂ began.sound hvisit with same | ⟨e, he, hnames⟩
      · left
        calc meaning (w'.notes.get k) = meaning (w₃.notes.get k) := later
          _ = meaning (w₂.notes.get k) := after.isLocal.meaning k (.inl hne)
          _ = meaning (w₁.notes.get k) := same
          _ = meaning (w.notes.get k) := readies.isLocal.meaning k (.inl hne)
      · exact .inr ⟨e, List.mem_append_left _ he, hnames⟩
    · exact .inr ⟨e, List.mem_append_right _ he, hnames⟩

end Visit

theorem visit_settles (env : Env) (n : NodeId) {w w' : Walk} (hs : Sound w)
    (hok : visit env n w = .ok () w') : Settles env (entries env n w) w' := by
  obtain ⟨plan, v, henter, admitted, tour⟩ := visit_tour hs hok
  intro m v' plan' v'' he henter'
  rw [entries_of_ok henter] at he
  rcases List.mem_cons.1 he with he | he
  · cases he
    rw [henter] at henter'
    cases henter'
    refine ⟨tour.extends, fun k names => ?_⟩
    cases names with
    | own kind =>
      refine tour.keep (.inr kind) fun c hc => .inl ?_
      obtain ⟨s, -, rfl⟩ := List.mem_map.1 hc
      exact not_within_of_mem_children s.child.property
    | member child identifier =>
      refine tour.keep (.inr (.inl (by simp [identifier]))) fun c hc => ?_
      obtain ⟨s, -, rfl⟩ := List.mem_map.1 hc
      by_cases hk : k = s.child.val
      · exact .inr ⟨hk, hk ▸ identifier⟩
      · exact .inl fun hwithin => hwithin.of_child_ne s.child.property child (Ne.symm hk)
  · exact tour.settles (fun c hc v v' hs hok => visit_settles env c hs hok) m v' plan' v'' he
      henter'
termination_by env.tree.size - n.val
decreasing_by
  have := lt_of_mem_children hc
  omega

theorem visit_names (env : Env) (n : NodeId) {k : NodeId} {w w' : Walk}
    (hk : (env.tree.kind k).isName ∨ env.tree.kind k = .field) (hs : Sound w)
    (hok : visit env n w = .ok () w') :
    meaning (w'.notes.get k) = meaning (w.notes.get k) ∨
      ∃ e ∈ entries env n w, Entered env e ∧ Names env e.1 k := by
  obtain ⟨plan, v, henter, admitted, tour⟩ := visit_tour hs hok
  rw [entries_of_ok henter]
  by_cases names : Names env n k
  · exact .inr ⟨(n, w), List.mem_cons_self, ⟨plan, v, henter⟩, names⟩
  by_cases hkn : k = n
  · left
    subst hkn
    rw [visit_identifier (by_contra fun apart => names (.own hk apart)) hok]
  · have entered : meaning (v.notes.get k) = meaning (w.notes.get k) := by
      by_cases hidentifier : env.tree.kind k = .identifier
      · rw [admitted.enters.apart hkn fun child => names (.member child hidentifier)]
      · exact congrArg meaning (admitted.enters.kept hkn hidentifier)
    rcases tour.names hkn fun c hc v v' hs hok => visit_names env c hk hs hok with
      same | ⟨e, he, hnames⟩
    · exact .inl (same.trans entered)
    · exact .inr ⟨e, List.mem_cons_of_mem _ he, hnames⟩
termination_by env.tree.size - n.val
decreasing_by
  have := lt_of_mem_children hc
  omega

section Unit

variable {env : Env} {w : Walk}

/-- When a walk over a unit succeeds, what the names on its nodes stand for is what was found when
they were looked up. -/
theorem visitUnit_settles {notes : Annotations}
    (hok : visitUnit env (start env notes) = .ok () w) :
    Settles env (unitEntries env notes) w :=
  (tour_unit env notes hok).settles fun c _ _ _ hs hok => visit_settles env c hs hok

/-- When a walk over a tree on which nothing was written succeeds, every name that stands for
something has been looked up. -/
theorem visitUnit_names {size : Nat} {k : NodeId} {s : SymbolId}
    (hok : visitUnit env (start env (.blank size)) = .ok () w) (hroot : k ≠ root)
    (hk : (env.tree.kind k).isName ∨ env.tree.kind k = .field)
    (hsymbol : (w.notes.get k).symbol = some s) :
    ∃ m v plan v', (m, v) ∈ unitEntries env (.blank size) ∧ enter env m v = .ok plan v' ∧
      Names env m k ∧ meaning (v'.notes.get k) = meaning (w.notes.get k) := by
  have tour := tour_unit env _ hok
  rcases tour.names hroot fun c _ v v' hs hok => visit_names env c hk hs hok with
    same | ⟨⟨m, v⟩, he, ⟨plan, v', henter⟩, names⟩
  · have hnone : (w.notes.get k).symbol = none := by
      rw [show (w.notes.get k).symbol = ((start env (.blank size)).notes.get k).symbol from
        congrArg (·.1) same, start, Annotations.get_update_of_ne hroot.symm, Annotations.get_blank]
    rw [hnone] at hsymbol
    cases hsymbol
  · exact ⟨m, v, plan, v', he, henter, names,
      ((visitUnit_settles hok m v plan v' he henter).2 k names).symm⟩

end Unit

end AblResolve.Walk
