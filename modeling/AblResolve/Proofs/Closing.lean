import AblResolve.Proofs.Unit
/-!
How definitions are closed when a record names no table. Every node on the way up closes what it
has opened, in order, and passes the fault on; so a visit that fails leaves the open definitions as
it found them. The exception is the variable of a CATCH block, which stays open: what is left
behind are these variables, and a definition around one of them cannot be closed.
-/
namespace AblResolve.Walk

open UnitIndex ParseTree

variable {env : Env} {n r : NodeId} {w v w' : Walk} {es : List (NodeId × Walk)} {f : Fault}

/-- The fault that record `r` gives when it names no table. -/
def faultAt (env : Env) (r : NodeId) : Fault :=
  .unresolvedTable (env.tree.text r) (fileNameOf env r) (env.tree.location r)

/-- What is left of the definitions `outer` that were open when a visit began, after the visit has
failed at a record that was entered in state `v`. -/
inductive FailsAt (env : Env) (outer : List SymbolId) (r : NodeId) (v : Walk) :
    EStateM.Result Fault Walk Unit → Prop
  /-- What was opened since then has been closed again, but for the variables of CATCH blocks. -/
  | closed {E : List SymbolId} {w : Walk} (opened : v.openDefinitions = E ++ outer)
      (orderly : Orderly env.tree v.index E)
      (left : w.openDefinitions = E.filter (caught env.tree v.index) ++ outer) :
      FailsAt env outer r v (.error (faultAt env r) w)
  /-- A variable of a CATCH block has been left open inside of something that is to be closed. -/
  | disorder {E : List SymbolId} {inner : Option SymbolId} {closing : SymbolId} {w : Walk}
      (opened : v.openDefinitions = E ++ outer) (disorderly : ¬ Orderly env.tree v.index E) :
      FailsAt env outer r v (.error (.breach (.definitionOrder inner closing)) w)

/-- Where no variable of a CATCH block is open, everything is closed in order. -/
theorem FailsAt.restored {outer : List SymbolId} {result : EStateM.Result Fault Walk Unit}
    (h : FailsAt env outer r v result)
    (plain : ∀ d ∈ v.openDefinitions, caught env.tree v.index d = false) :
    ∃ w, result = .error (faultAt env r) w ∧ w.openDefinitions = outer := by
  have below : ∀ {E}, v.openDefinitions = E ++ outer → ∀ d ∈ E, caught env.tree v.index d = false :=
    fun opened d hd => plain d (opened ▸ List.mem_append_left _ hd)
  cases h with
  | closed opened orderly left =>
    refine ⟨_, rfl, ?_⟩
    rw [left, List.filter_eq_nil_iff.2 fun d hd => by simp [below opened d hd], List.nil_append]
  | disorder opened disorderly =>
    refine absurd (List.pairwise_iff_forall_sublist.2 fun sublist h => ?_) disorderly
    simp [below opened _ (sublist.subset List.mem_cons_self)] at h

theorem Misfit.kind_ne_record {t : ParseTree} {n : NodeId} {F : Frame} {m : Misplacement}
    (h : Misfit t n F m) : t.kind n ≠ .record := by
  intro hkind
  cases h with
  | asClause kind | likeClause kind | extentClause kind => simp [hkind] at kind
  | tableClause kind => simp [hkind, NodeKind.isTableClause] at kind
  | nestedTable kind => simp [hkind, NodeKind.isTableDefinition] at kind
  | bufferWithoutTable kind => simp [hkind, NodeKind.isBufferDefinition] at kind

/-- A record that names no table is the last node to be entered. -/
theorem Stops.eq_of_namesNone {es : List (NodeId × Walk)} {r r' : NodeId} {v v' : Walk}
    (h : Stops env es r v) (hs : Sound v') (he : (r', v') ∈ es) (hnone : NamesNone env r' v') :
    (r', v') = (r, v) := by
  obtain ⟨before, rfl, passed⟩ := h.last
  rcases List.mem_append.1 he with he | he
  · exact absurd (passed _ he) (hnone.not_entered hs)
  · exact List.mem_singleton.1 he

/-- How a computation that begins in state `w` and enters the nodes in `es` closes definitions. -/
structure Closes (env : Env) (w : Walk) (es : List (NodeId × Walk)) (m : WalkM Unit) : Prop where
  ok : ∀ w', m w = .ok () w' → w'.openDefinitions = w.openDefinitions
  fails : ∀ r v, (r, v) ∈ es → NamesNone env r v → FailsAt env w.openDefinitions r v (m w)
  /-- A failure has to do with definitions only if a record names no table. -/
  only : ∀ f w', m w = .error f w' → (∃ r v, (r, v) ∈ es ∧ NamesNone env r v) ∨
    (∃ m, f = .misplaced m) ∨ ∃ s size, f = .breach (.dangling .symbol s size)

section Closes

variable {m : WalkM Unit} {Q : Unit → Walk → Prop}

theorem failsAt_of_ends (ends : Ends m w (Breaks env w es) Q)
    (passed : ∀ a w', Q a w' → ∀ e ∈ es, Entered env e) (hs : Sound v) (he : (r, v) ∈ es)
    (hnone : NamesNone env r v) : FailsAt env w.openDefinitions r v (m w) := by
  have stuck := hnone.not_entered hs
  unfold Ends at ends
  cases hm : m w with
  | ok a w' =>
    rw [hm] at ends
    exact absurd (passed a w' ends _ he) stuck
  | error f w' =>
    rw [hm] at ends
    cases ends with
    | misplaced entry passed misfit =>
      rename_i k v'
      by_cases heq : (r, v) = (k, v')
      · cases heq
        exact absurd hnone.1 misfit.kind_ne_record
      · exact absurd (passed _ he heq) stuck
    | dangling stale passed => exact absurd (passed _ he) stuck
    | unresolved stops opened orderly sound ext since frame =>
      cases stops.eq_of_namesNone hs he hnone
      exact .closed opened orderly (congrArg Frame.definitions frame)
    | disorder stops opened disorder =>
      cases stops.eq_of_namesNone hs he hnone
      exact .disorder opened disorder

theorem Closes.of_ends (ends : Ends m w (Breaks env w es) Q)
    (passed : ∀ a w', Q a w' → ∀ e ∈ es, Entered env e)
    (same : ∀ a w', Q a w' → w'.frame = w.frame) (sound : ∀ e ∈ es, Sound e.2) :
    Closes env w es m := by
  refine ⟨fun w' hok => congrArg Frame.definitions (same _ _ (ends.ok hok)),
    fun r v he hnone => failsAt_of_ends ends passed (sound _ he) he hnone, fun f w' hw => ?_⟩
  have stopped : ∀ {r v}, Stops env es r v → ∃ r v, (r, v) ∈ es ∧ NamesNone env r v := by
    intro r v stops
    obtain ⟨before, rfl, -⟩ := stops.last
    exact ⟨r, v, List.mem_append_right _ (List.mem_singleton_self _), stops.namesNone⟩
  cases ends.error hw with
  | misplaced => exact .inr (.inl ⟨_, rfl⟩)
  | dangling => exact .inr (.inr ⟨_, _, rfl⟩)
  | unresolved stops | disorder stops => exact .inl (stopped stops)

/-- If the fault is that a record names no table, then there is such a record. -/
theorem Closes.stops (h : Closes env w es m) (failed : (match m w with
      | .error f _ => f.isUnresolvedTable
      | .ok _ _ => false) = true) : ∃ r v, (r, v) ∈ es ∧ NamesNone env r v := by
  cases hm : m w with
  | ok a w' => simp [hm] at failed
  | error f w' =>
    rcases h.only f w' hm with stops | ⟨_, rfl⟩ | ⟨_, _, rfl⟩
    · exact stops
    · simp [hm, Fault.isUnresolvedTable] at failed
    · simp [hm, Fault.isUnresolvedTable] at failed

end Closes

theorem closes_visit (hs : Sound w) : Closes env w (entries env n w) (visit env n) :=
  .of_ends (ends_visit env n hs) (fun _ _ h => h.2) (fun _ _ h => h.1.frame) fun e he =>
    (entries_keep (P := fun _ _ => True) (fun _ _ => trivial) n hs trivial e he).1

theorem closes_visitUnit (env : Env) (notes : Annotations) :
    Closes env (start env notes) (unitEntries env notes) (visitUnit env) :=
  .of_ends (ends_visitUnit env notes) (fun _ _ h => h.2) (fun _ _ h => h.1.frame) fun _ he =>
    sound_of_mem_unitEntries he

/-- How a walk closes definitions, whatever is written on the tree. A definition is closed out of
order only if a record names no table. Then the walk and every visit around the record close what
they have opened, in order, and fail with the fault of the record, as long as no variable of a
CATCH block is open there; if one is, it stays open, and a definition around it is found not to be
the innermost one. -/
theorem walkUnit_closes (env : Env) (notes : Annotations) :
    Closes env (start env notes) (unitEntries env notes) (walkUnit env) ∧
    (∀ n w, (n, w) ∈ unitEntries env notes → Closes env w (entries env n w) (visit env n)) ∧
    ∀ r v, (r, v) ∈ unitEntries env notes → NamesNone env r v →
      (∀ d ∈ v.openDefinitions, caught env.tree v.index d = false) →
      (∃ w, walkUnit env (start env notes) = .error (faultAt env r) w ∧ w.openDefinitions = []) ∧
      ∀ n w, (n, w) ∈ unitEntries env notes → (r, v) ∈ entries env n w →
        ∃ w', visit env n w = .error (faultAt env r) w' ∧
          w'.openDefinitions = w.openDefinitions := by
  have unit := closes_visitUnit env notes
  have visits : ∀ n w, (n, w) ∈ unitEntries env notes →
      Closes env w (entries env n w) (visit env n) :=
    fun n w he => closes_visit (sound_of_mem_unitEntries he)
  refine ⟨?_, visits, fun r v he hnone plain => ⟨?_, fun n w hn hr => ?_⟩⟩
  · exact ⟨walkUnit_eq env notes ▸ unit.ok, walkUnit_eq env notes ▸ unit.fails,
      walkUnit_eq env notes ▸ unit.only⟩
  · rw [walkUnit_eq]
    exact (unit.fails r v he hnone).restored plain
  · exact ((visits n w hn).fails r v hr hnone).restored plain

/-- The variable of a CATCH block in which a record names no table is left open. -/
example :
    let env : Env := { tree := .ofRows [(0, .catchBlock, ""), (1, .record, "nosuch")] }
    (match walkUnit env (start env (.blank env.tree.size)) with
      | .error f w => f.isUnresolvedTable && w.openDefinitions = [⟨1⟩]
      | .ok _ _ => false) = true := by
  decide +kernel

/-- Only nodes of the tree have another kind than that of a plain statement. -/
theorem lt_size_of_kind {t : ParseTree} (h : t.kind n ≠ .statement) : n.val < t.size := by
  by_contra hn
  have hnone : t.nodes.get? n = none := by simpa using mt Arena.get?_isSome_iff.1 hn
  rw [kind, node?, hnone] at h
  exact h rfl

/-- In a tree without CATCH blocks, no definition is that of the variable of one. -/
theorem not_caught {t : ParseTree} (free : ∀ i < t.size, t.kind ⟨i⟩ ≠ .catchBlock) (x : UnitIndex)
    (s : SymbolId) : caught t x s = false := by
  unfold caught
  cases x.variableNode? s with
  | none => rfl
  | some m =>
    simp only [Option.any_some, decide_eq_false_iff_not]
    intro hm
    exact free m.val (lt_size_of_kind (by rw [hm]; exact nofun)) hm

/-- A variable definition that holds a trigger, in which a second one holds a record that names no
table. -/
def nestedSample : ParseTree := .ofRows [
  (0, .defineVariable, ""), (1, .identifier, "a"), (1, .onStatement, ""),
  (3, .defineVariable, ""), (4, .identifier, "b"), (4, .record, "nosuch")]

/-- In the sample, two definitions are open when the record is entered; the visit of the inner one
leaves the outer one open, and the walk leaves none. -/
theorem walkUnit_closes_sample :
    let env : Env := { tree := nestedSample }
    let notes : Annotations := .blank nestedSample.size
    (∃ v w, (⟨6⟩, v) ∈ unitEntries env notes ∧ NamesNone env ⟨6⟩ v ∧
      v.openDefinitions = [⟨2⟩, ⟨1⟩] ∧
      walkUnit env (start env notes) = .error (faultAt env ⟨6⟩) w ∧ w.openDefinitions = []) ∧
    ∃ w w', (⟨4⟩, w) ∈ unitEntries env notes ∧ w.openDefinitions = [⟨1⟩] ∧
      visit env ⟨4⟩ w = .error (faultAt env ⟨6⟩) w' ∧ w'.openDefinitions = [⟨1⟩] := by
  intro env notes
  obtain ⟨unit, visits, restored⟩ := walkUnit_closes env notes
  have plain : ∀ x s, caught env.tree x s = false := not_caught (by decide)
  have record : ∀ {r v}, NamesNone env r v → r = ⟨6⟩ := by
    intro r v hnone
    have only : ∀ i < nestedSample.size, nestedSample.kind ⟨i⟩ = .record → i = 6 := by decide
    exact Id.ext (only r.val (lt_size_of_kind (by rw [hnone.1]; exact nofun)) hnone.1)
  constructor
  · obtain ⟨r, v, he, hnone⟩ := unit.stops (by decide +kernel)
    cases record hnone
    have opened : (unitEntries env notes).all fun e =>
        e.1 ≠ ⟨6⟩ || e.2.openDefinitions = [⟨2⟩, ⟨1⟩] := by
      decide +kernel
    obtain ⟨⟨w, failed, closed⟩, -⟩ := restored _ v he hnone fun d _ => plain _ d
    exact ⟨v, w, he, hnone, by simpa using List.all_eq_true.1 opened _ he, failed, closed⟩
  · have met : (unitEntries env notes).any (fun e => e.1 = ⟨4⟩ && e.2.openDefinitions = [⟨1⟩] &&
        match visit env ⟨4⟩ e.2 with
        | .error f _ => f.isUnresolvedTable
        | .ok _ _ => false) := by
      decide +kernel
    obtain ⟨⟨n, w⟩, hn, hw⟩ := List.any_eq_true.1 met
    simp only [Bool.and_eq_true, decide_eq_true_eq] at hw
    obtain ⟨⟨rfl, opened⟩, failed⟩ := hw
    obtain ⟨r, v, hr, hnone⟩ := (visits _ w hn).stops failed
    cases record hnone
    have fails := (visits _ w hn).fails _ v hr hnone
    obtain ⟨w', hvisit, same⟩ := fails.restored fun d _ => plain _ d
    exact ⟨w, w', hn, opened, hvisit, same.trans opened⟩

end AblResolve.Walk
