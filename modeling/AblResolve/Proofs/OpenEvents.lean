import AblResolve.Proofs.Exits
/-!
The signature that is being read. While the nodes below an event are visited, the event is the one
whose signature is being read, and afterwards it is the event around it again. Hence whenever a node
is entered the open event is that of the innermost event around it.
-/
namespace AblResolve

namespace ParseTree

/-- The innermost event around a node. The root is not visited, whatever its kind. -/
def enclosingEvent? (t : ParseTree) (n : NodeId) : Option NodeId :=
  match _parent : t.parent? n with
  | none => none
  | some p =>
    if p = root then none
    else if t.kind p = .defineEvent then some p
    else t.enclosingEvent? p
termination_by n.val
decreasing_by exact (lt_of_mem_children (mem_children_of_parent? _parent)).1

theorem enclosingEvent?_of_mem_children {t : ParseTree} {n c : NodeId} (h : c ∈ t.children n) :
    t.enclosingEvent? c =
      if n = root then none
      else if t.kind n = .defineEvent then some n else t.enclosingEvent? n := by
  rw [enclosingEvent?]
  split
  · rename_i hp
    rw [parent?_of_mem_children h] at hp
    cases hp
  · rename_i p hp
    rw [parent?_of_mem_children h] at hp
    cases hp
    rfl

end ParseTree

namespace Walk

open UnitIndex ParseTree

/-- The signature that is being read is that of the innermost event around node `n`, as written in
`notes`. -/
structure ReadsEvent (env : Env) (notes : Annotations) (n : NodeId) (w : Walk) : Prop where
  symbol : w.openEvent = (env.tree.enclosingEvent? n).bind fun e => (notes.get e).symbol
  isNone : w.openEvent = none → env.tree.enclosingEvent? n = none

/-- What is written on events when they are entered is written there in `notes`. -/
def KeepsEvents (env : Env) (notes : Annotations) (es : List (NodeId × Walk)) : Prop :=
  ∀ m v plan v', (m, v) ∈ es → env.tree.kind m = .defineEvent → enter env m v = .ok plan v' →
    (notes.get m).symbol = (v'.notes.get m).symbol

section Events

variable {env : Env} {n : NodeId} {w₀ w w' : Walk} {notes : Annotations}

theorem enterEvent_ok {plan : Plan env.tree n} (hok : enterEvent env n w = .ok plan w') :
    (w'.notes.get n).symbol = w'.openEvent ∧ w'.openEvent ≠ none := by
  unfold enterEvent define at hok
  obtain ⟨s, w₁, hdefine, hrest⟩ := bind_ok.1 hok
  obtain ⟨scope, w₂, hscope, hcreate⟩ := bind_ok.1 hdefine
  obtain ⟨rfl, rfl⟩ := currentScope_ok hscope
  obtain ⟨s', w₃, hsymbol, hbegin⟩ := bind_ok.1 hcreate
  obtain ⟨rfl, rfl⟩ := createSymbol_ok hsymbol
  obtain ⟨_, w₄, hopen, hpure⟩ := bind_ok.1 hbegin
  cases hopen
  cases hpure
  cases hrest
  exact ⟨congrArg Annotation.symbol (Annotations.get_update_self _ _ _), nofun⟩

theorem Entering.turns_none {ds : List Deed} {owes : List SymbolId} (h : Entering env n ds owes)
    (kind : env.tree.kind n ≠ .defineEvent) (event : Option SymbolId) : .turn event ∉ ds := by
  cases h with
  | event isEvent => exact absurd isEvent kind
  | inline _ _ loading => cases loading <;> simp
  | _ => simp

/-- Entering a node that is no event leaves the signature that is being read alone. -/
theorem enter_openEvent {plan : Plan env.tree n} (hs : Sound w)
    (kind : env.tree.kind n ≠ .defineEvent) (henter : enter env n w = .ok plan w') :
    w'.openEvent = w.openEvent := by
  obtain ⟨ds, log, begins⟩ := enter_begins hs henter
  refine log.keep (P := fun v => v.openEvent = w.openEvent) rfl
    (fun _ _ calm same => calm.event.trans same) fun d hd _ _ effect same => ?_
  cases effect with
  | turn event => exact absurd hd (begins.entering.turns_none kind event)
  | _ => exact same

/-- If node `c` reads the right signature, so do all nodes below it that are entered. -/
def Reading (env : Env) (notes : Annotations) (c : NodeId) (v _ : Walk) : Prop :=
  c ≠ root → KeepsEvents env notes (entries env c v) → ReadsEvent env notes c v →
    ∀ e ∈ entries env c v, ReadsEvent env notes e.1 e.2

/-- Below a node that has been entered, the children read the right signature. -/
theorem Rounds.readsEvent {steps : List (Step env.tree n)}
    (h : Rounds env n w₀ (Reading env notes) steps w w')
    (plain : ∀ s ∈ steps, ∀ a ∈ s.before ++ s.after, a.isPlain)
    (keeps : KeepsEvents env notes (stepsEntries env steps w))
    (child : ∀ c ∈ env.tree.children n, ∀ v : Walk, v.openEvent = w.openEvent →
      ReadsEvent env notes c v) :
    ∀ e ∈ stepsEntries env steps w, ReadsEvent env notes e.1 e.2 := by
  induction h with
  | nil => simp [stepsEntries, collect]
  | @cons step rest w w₁ w₂ w₃ w₄ w' sound prepared tells before began visit visited below after
      once run others ih =>
    have own := plain _ List.mem_cons_self
    rw [stepsEntries_of_ok run, Step.entries_of_done prepared before] at keeps ⊢
    have told : w₁.openEvent = w.openEvent := congrArg Frame.event tells.frame
    have readied := (before.openEvent fun a ha => own a (List.mem_append_left _ ha)).trans told
    have returned : w₃.openEvent = w₂.openEvent := congrArg Frame.event visited.frame
    have done := (after.openEvent fun a ha => own a (List.mem_append_right _ ha)).trans
      (returned.trans readied)
    intro e he
    rcases List.mem_append.1 he with he | he
    · exact below (ne_root_of_mem_children step.child.property)
        (fun m v plan v' hm => keeps m v plan v' (List.mem_append_left _ hm))
        (child _ step.child.property _ readied) e he
    · exact ih (fun s hs => plain s (List.mem_cons_of_mem _ hs))
        (fun m v plan v' hm => keeps m v plan v' (List.mem_append_right _ hm))
        (fun c hc v hv => child c hc v (hv.trans done)) e he

theorem visit_readsEvent (n : NodeId) (hs : Sound w) (hok : visit env n w = .ok () w')
    (hroot : n ≠ root) (keeps : KeepsEvents env notes (entries env n w))
    (reads : ReadsEvent env notes n w) : ∀ e ∈ entries env n w, ReadsEvent env notes e.1 e.2 := by
  refine visit_rounds (P := Reading env notes) ?_ n hs hok hroot keeps reads
  intro n w plan v v' w' hs henter admitted rounds done visited hroot keeps reads
  obtain ⟨ds, log, begins⟩ := enter_begins hs henter
  rw [entries_of_ok henter] at keeps ⊢
  intro e he
  rcases List.mem_cons.1 he with rfl | he
  · exact reads
  refine rounds.readsEvent begins.steps
    (fun m u p u' hm => keeps m u p u' (List.mem_cons_of_mem _ hm)) (fun c hc u hu => ?_) e he
  have around := enclosingEvent?_of_mem_children hc
  rw [if_neg hroot] at around
  by_cases kind : env.tree.kind n = .defineEvent
  · have isEvent : enterEvent env n w = .ok plan v := by
      rw [← henter]
      simp only [enter, kind]
    obtain ⟨symbol, found⟩ := enterEvent_ok isEvent
    rw [if_pos kind] at around
    refine ⟨?_, fun none => absurd (hu.symm.trans none) found⟩
    rw [around, hu, ← symbol]
    exact (keeps n w plan v List.mem_cons_self kind henter).symm
  · rw [if_neg kind] at around
    have same := hu.trans (enter_openEvent hs kind henter)
    exact ⟨by rw [same, around, reads.symbol],
      fun none => around.trans (reads.isNone (same.symm.trans none))⟩

/-- What is written on an event when it is entered stays. -/
theorem keeps_events : Keeps env fun es w => KeepsEvents env w.notes es where
  enters es n w plan w' hs nodup hok _ keeps := by
    obtain ⟨ds, log, -⟩ := enter_begins hs hok
    intro m v p v' hm kind henter
    rcases List.mem_append.1 hm with old | new
    · have hne : m ≠ n := by
        rintro rfl
        rw [List.map_append, List.nodup_append] at nodup
        exact nodup.2.2 m (List.mem_map_of_mem old) m (by simp) rfl
      have same : (w'.notes.get m).symbol = (w.notes.get m).symbol := by
        refine congrArg (·.1) (log.written ?_)
        rintro (heq | ⟨-, isIdentifier⟩)
        · exact hne heq
        · rw [kind] at isIdentifier
          cases isIdentifier
      exact same.trans (keeps m v p v' old kind henter)
    · cases List.mem_singleton.1 new
      rw [hok] at henter
      cases henter
      rfl
  acts es w ds w' _ _ log _ keeps := by
    intro m v p v' hm kind henter
    have same : (w'.notes.get m).symbol = (w.notes.get m).symbol := by
      refine congrArg (·.1) (log.written fun isBuffer => ?_)
      have isBuffer : (env.tree.kind m).isBufferDefinition = true := isBuffer
      rw [kind] at isBuffer
      cases isBuffer
    exact same.trans (keeps m v p v' hm kind henter)

/-- When a walk over the unit succeeds, every node was entered while the signature of the innermost
event around it was read. -/
theorem visitUnit_readsEvent {start_ : Annotations}
    (hok : visitUnit env (start env start_) = .ok () w) :
    ∀ e ∈ unitEntries env start_, ReadsEvent env w.notes e.1 e.2 := by
  have keeps : KeepsEvents env w.notes (unitEntries env start_) :=
    visitUnit_keep keeps_events hok (by simp [KeepsEvents])
  have rounds : Rounds env root _ (Reading env w.notes) (unitSteps env) _ w :=
    visitUnit_rounds (fun c _ _ _ hs hok => visit_readsEvent c hs hok) hok
  refine rounds.readsEvent (fun s hs a ha => ?_) keeps fun c hc v none => ?_
  · obtain ⟨c, -, rfl⟩ := List.mem_map.1 hs
    cases ha
  · have around := enclosingEvent?_of_mem_children hc
    rw [if_pos rfl] at around
    exact ⟨by rw [none, around]; rfl, fun _ => around⟩

end Events

end Walk

end AblResolve
