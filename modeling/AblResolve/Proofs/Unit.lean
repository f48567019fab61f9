import AblResolve.Analysis
import AblResolve.Proofs.Told
/-!
The walk over a whole unit. The root is not entered; its children are visited from the state in
which a walk starts, which is sound whatever is written on the tree. When all have been visited,
everything is closed again.
-/
namespace AblResolve

namespace Walk

open UnitIndex ParseTree

variable (env : Env) (notes : Annotations)

/-! ### The start -/

theorem start_arena {e : Entity} {α : Type} {a v : α} {i : Id e}
    (h : (⟨#[a]⟩ : Arena e α).get? i = some v) : i = ⟨0⟩ ∧ v = a := by
  have hlt := Arena.lt_size_of_get? h
  have hzero : i = ⟨0⟩ := Id.ext (Nat.lt_one_iff.1 hlt)
  subst hzero
  exact ⟨rfl, (Option.some.inj h).symm⟩

theorem coherent_start : (start env notes).index.Coherent where
  root := ⟨_, rfl, rfl⟩
  scopes hv := by
    obtain ⟨rfl, rfl⟩ := start_arena hv
    refine ⟨.inl ⟨rfl, rfl⟩, ⟨_, rfl, rfl, rfl⟩, ?_, rfl, by simp, by simp, by simp⟩
    rintro r ⟨⟩
    exact ⟨_, _, rfl, rfl, rfl⟩
  blocks hv := by
    obtain ⟨rfl, rfl⟩ := start_arena hv
    exact ⟨Nat.one_pos, .outermost rfl rfl rfl rfl, fun _ => ⟨_, rfl, rfl⟩, by simp⟩
  bufferScopes hv := by cases hv
  symbols hv := by
    obtain ⟨rfl, rfl⟩ := start_arena hv
    exact ⟨Nat.one_pos, ⟨_, rfl, rfl, rfl⟩, by simp⟩
  tables hv := by cases hv
  indexes hv := by cases hv
  schemaTables := by simp [start]

theorem sound_start : Sound (start env notes) where
  coherent := coherent_start env notes
  standing := by
    refine ⟨?_, ?_, ⟨_, rfl, rfl⟩, ?_, ?_, ?_⟩ <;> simp [start, Walk.frame]
  unfrozen := by simp [start]
  deferred := by simp [start]
  lastTable := by simp [start]
  previousTable := by simp [start]
  forwards := by simp [start]
  qualifiers := by simp [start, SideTable.find?]

theorem frame_start : (start env notes).frame = ⟨[rootScope], [⟨0⟩], [], none, none⟩ := rfl

theorem fits_start : Fits env.tree root (start env notes).frame :=
  ⟨fun h => absurd rfl h, fun h => absurd rfl h, by simp [frame_start]⟩

/-- The symbols on the nodes of a tree on which nothing is written exist from the start on. -/
theorem inRange_start (size : Nat) : (start env (.blank size)).InRange := by
  intro m s hs
  simp only [start, Annotations.get_update, Annotations.get_blank] at hs
  split at hs
  · cases hs
    exact Nat.one_pos
  · simp at hs

/-! ### The children of the root -/

/-- The visits of the children of the root, as steps. -/
abbrev unitSteps : List (Step env.tree root) := plainSteps env.tree root

/-- The nodes that a walk over the unit enters, in order, each with the state in which it is
entered. -/
def unitEntries : List (NodeId × Walk) := stepsEntries env (unitSteps env) (start env notes)

theorem run_plain {n : NodeId} (c : env.tree.Child n) (m : WalkM Unit) :
    (Step.plain c).run env m = m := by
  have hcatch : tryCatch m ((Step.plain c).undo env) = m := by
    funext w
    show EStateM.tryCatch (δ := PUnit) m _ w = _
    unfold EStateM.tryCatch
    cases m w with
    | ok _ w' => rfl
    | error f w' => cases f <;> rfl
  rw [Step.run_eq, hcatch]
  show (pure () >>= fun _ => m >>= fun _ => pure ()) = m
  simp

theorem visitUnit_eq : visitUnit env = (do
    (unitSteps env).forM fun step => step.run env (visit env step.child.val)
    performAll env []) := by
  have loop : ∀ cs : List (env.tree.Child root),
      (cs.map Step.plain).forM (fun step => step.run env (visit env step.child.val)) =
        (cs.map (·.val)).forM (visit env) := by
    intro cs
    induction cs with
    | nil => rfl
    | cons c cs ih =>
      show (do (Step.plain c).run env _; _) = (do visit env c.val; _)
      rw [run_plain, ih]
      rfl
  have hmap : (env.tree.childList root).map (·.val) = env.tree.children root := by
    rw [ParseTree.childList, List.attach_map_subtype_val]
  show (env.tree.children root).forM (visit env) = ((unitSteps env).forM _ >>= fun _ => pure ())
  rw [unitSteps, plainSteps, loop, hmap]
  simp

theorem parent?_root (t : ParseTree) : t.parent? root = none := by
  cases h : t.parent? root with
  | none => rfl
  | some p =>
    have := (lt_of_mem_children (mem_children_of_parent? h)).1
    simp [root] at this

theorem handleUses_root (c : NodeId) : handleUses env root c = [] := by
  have hmode : handleMode env root = .ref := by rw [handleMode, parent?_root]
  unfold handleUses
  rw [hmode]
  exact if_neg fun h => by simp [Qualifier.isWrite] at h

theorem amid_start : Amid env root (start env notes) [] (unitSteps env) [] (start env notes) := by
  have hs := sound_start env notes
  refine ⟨⟨hs, hs, .refl _, id, fun _ _ => rfl, ?_, fun _ _ _ _ _ => rfl, by simp, ?_⟩, ?_⟩
  · intro c hc
    obtain ⟨s, -, rfl⟩ := List.mem_map.1 hc
    exact s.child.property
  · rintro r (⟨-, hroot⟩ | hr)
    · exact absurd rfl hroot
    · simp at hr
  · refine course_level .nothing ?_ ?_ bareSteps_plain.once (by simp) fun _ _ => .nil _
    · intro s hs
      obtain ⟨c, -, rfl⟩ := List.mem_map.1 hs
      refine ⟨rfl, rfl, by simp [Step.plain], ?_, fun _ _ => .nil _⟩
      rw [handleUses_root]
      rfl
    · intro s _ wp _
      refine ⟨fun _ h => ?_, fun _ h => ?_, by simp [frame_start]⟩
      · exact absurd rfl (wp.clause s.child.property h).1
      · exact absurd rfl (wp.tableClause s.child.property h).1

theorem not_busy_unit : ¬ Busy [] (unitSteps env) := by
  rintro (h | ⟨s, hs, h⟩)
  · exact h rfl
  · obtain ⟨c, -, rfl⟩ := List.mem_map.1 hs
    simp [Step.plain] at h

theorem ends_visitUnit : Ends (visitUnit env) (start env notes)
    (Breaks env (start env notes) (unitEntries env notes)) fun _ w =>
      Visited env root (start env notes) w ∧ ∀ e ∈ unitEntries env notes, Entered env e := by
  rw [visitUnit_eq]
  refine ((amid_start env notes).ends_steps fun c w hs => ends_visit env c.val hs).mono ?_
    fun _ _ => id
  rintro f w (⟨busy, -⟩ | breaks)
  · exact absurd busy (not_busy_unit env)
  · exact breaks

theorem tour_unit {w : Walk} (hok : visitUnit env (start env notes) = .ok () w) :
    Tour env root (start env notes) (unitSteps env) (start env notes) w := by
  rw [visitUnit_eq] at hok
  exact (amid_start env notes).tour plainly_plain hok

/-! ### The end -/

theorem noneTold_visitUnit {w : Walk} (hok : visitUnit env (start env notes) = .ok () w) :
    NoneTold w :=
  (tour_unit env notes hok).noneTold (fun _ => rfl) fun c _ _ _ hs told hok =>
    visit_noneTold env c hs told hok

theorem ends_checkClosed {E : Fault → Walk → Prop} {Q : PUnit → Walk → Prop} {w : Walk}
    (frame : w.frame = ⟨[rootScope], [⟨0⟩], [], none, none⟩) (told : NoneTold w) :
    Ends checkClosed w E Q ↔ Q ⟨⟩ w := by
  have scopes : w.scopeStack = [rootScope] := congrArg Frame.scopes frame
  have blocks : w.blockStack = [⟨0⟩] := congrArg Frame.blocks frame
  have definitions : w.openDefinitions = [] := congrArg Frame.definitions frame
  unfold checkClosed
  rw [ends_bind, ends_get, ends_bind, ends_demand (by simp [scopes]), ends_bind,
    ends_demand (by simp [blocks]), ends_bind, ends_demand (by simp [definitions]),
    ends_demand (by simp [size_qualifiers told])]

/-- When everything has been visited, all that was opened is closed. -/
theorem walkUnit_eq : walkUnit env (start env notes) = visitUnit env (start env notes) := by
  have hwalk : walkUnit env (start env notes) =
      EStateM.bind (visitUnit env) (fun _ => checkClosed) (start env notes) := rfl
  rw [hwalk, EStateM.bind]
  cases hw : visitUnit env (start env notes) with
  | error f w => rfl
  | ok _ w =>
    obtain ⟨visited, -⟩ := (ends_visitUnit env notes).ok hw
    have closed : Ends checkClosed w Never fun _ w' => w' = w :=
      (ends_checkClosed (visited.frame.trans (frame_start env notes))
        (noneTold_visitUnit env notes hw)).2 rfl
    unfold Ends at closed
    dsimp only
    cases hcheck : checkClosed w with
    | error f w' => rw [hcheck] at closed; exact closed.elim
    | ok _ w' => rw [hcheck] at closed; exact congrArg _ closed

/-! ### The nodes that are entered -/

/-- What holds of the children of the root when they are visited and goes over from a node to the
children that are visited below it holds whenever a node is entered. -/
theorem unitEntries_keep {P : NodeId → Walk → Prop}
    (first : ∀ {c w}, Began env root (start env notes) c w → P c w)
    (keep : ∀ {n c w w₁}, P n w → Began env n w c w₁ → P c w₁) :
    ∀ e ∈ unitEntries env notes, Sound e.2 ∧ P e.1 e.2 := by
  intro e he
  rw [unitEntries, stepsEntries_eq] at he
  obtain ⟨c, hc, he⟩ := List.mem_flatMap.1 he
  have began := (amid_start env notes).began hc
  exact entries_keep keep c.1 began.sound (first began) e he

/-- No node is entered twice in a walk over the unit, whether it succeeds or not. -/
theorem unitEntries_nodup : ((unitEntries env notes).map (·.1)).Nodup := by
  have amid := amid_start env notes
  rw [unitEntries, stepsEntries_eq]
  exact nodup_flatMap_entries (fun c => mem_children_of_mem_stepsCalls) amid.calls_nodup
    fun c hc => entries_nodup c.1 (amid.began hc).sound

variable {env notes}

theorem sound_of_mem_unitEntries {e : NodeId × Walk} (he : e ∈ unitEntries env notes) :
    Sound e.2 :=
  (unitEntries_keep env notes (P := fun _ _ => True) (fun _ => trivial)
    (fun _ _ => trivial) e he).1

/-- Every node that is entered is the child of another. -/
theorem exists_parent_of_mem_unitEntries {e : NodeId × Walk} (he : e ∈ unitEntries env notes) :
    ∃ p, e.1 ∈ env.tree.children p :=
  (unitEntries_keep env notes (P := fun n _ => ∃ p, n ∈ env.tree.children p)
    (fun began => ⟨_, began.child⟩) (fun _ began => ⟨_, began.child⟩) e he).2

/-- The root is not visited. -/
theorem ne_root_of_mem_unitEntries {e : NodeId × Walk} (he : e ∈ unitEntries env notes) :
    e.1 ≠ root := by
  obtain ⟨p, child⟩ := exists_parent_of_mem_unitEntries he
  exact ne_root_of_mem_children child

/-- A record that can be entered names something. -/
theorem NamesNone.not_entered {r : NodeId} {v : Walk} (hs : Sound v) (h : NamesNone env r v) :
    ¬ Entered env (r, v) := by
  rintro ⟨plan, v', henter⟩
  exact (((ends_enter env r hs).ok henter).record h.1).1 h.2

end Walk

/-! ### Analyses -/

namespace CompilationUnit

open Walk

variable (catalog : Catalog) (types : TypeRegistry) (options : Options)

/-- What an analysis gives, by how the visits below the root end. -/
theorem analyze_eq (u : CompilationUnit) :
    let env : Env := { tree := u.tree, catalog, types, options }
    u.analyze catalog types options =
      match visitUnit env (start env u.notes) with
      | .ok _ w => (.ok w.index, { u with notes := w.notes })
      | .error fault w => (.error fault,
        if fault.isUnresolvedTable then u.clear else { u with notes := w.notes }) := by
  intro env
  have walk : walkUnit env (start env u.notes) = visitUnit env (start env u.notes) := by
    rw [walkUnit_eq]
  unfold analyze
  dsimp only
  exact walk ▸ rfl

theorem analyze_ok {u u' : CompilationUnit} {index : UnitIndex}
    (h : u.analyze catalog types options = (.ok index, u')) :
    let env : Env := { tree := u.tree, catalog, types, options }
    ∃ w, visitUnit env (start env u.notes) = .ok () w ∧ index = w.index ∧
      u' = { u with notes := w.notes } := by
  unfold analyze at h
  dsimp only at h ⊢
  rw [walkUnit_eq] at h
  split at h
  · rename_i w hw
    cases h
    exact ⟨w, hw, rfl, rfl⟩
  · cases h

theorem analyze_error {u u' : CompilationUnit} {fault : Fault}
    (h : u.analyze catalog types options = (.error fault, u')) :
    let env : Env := { tree := u.tree, catalog, types, options }
    ∃ w, visitUnit env (start env u.notes) = .error fault w ∧
      u' = if fault.isUnresolvedTable then u.clear else { u with notes := w.notes } := by
  unfold analyze at h
  dsimp only at h ⊢
  rw [walkUnit_eq] at h
  split at h
  · cases h
  · rename_i f w hw
    cases h
    exact ⟨w, hw, rfl⟩

theorem exists_analyze_ok {u : CompilationUnit} (h : (u.analyze catalog types options).1.isOk) :
    ∃ index, u.analyze catalog types options =
      (.ok index, (u.analyze catalog types options).2) := by
  revert h
  rcases u.analyze catalog types options with ⟨fault | index, u'⟩
  · simp [Except.isOk, Except.toBool]
  · exact fun _ => ⟨index, rfl⟩

/-- An analysis that succeeds with an index of some sort, found out by running it. -/
theorem exists_analyze_ok_and {u : CompilationUnit} {P : UnitIndex → Prop} [DecidablePred P]
    (h : (u.analyze catalog types options).1.toOption.any (fun x => decide (P x)) = true) :
    ∃ index, u.analyze catalog types options =
      (.ok index, (u.analyze catalog types options).2) ∧ P index := by
  revert h
  rcases u.analyze catalog types options with ⟨fault | index, u'⟩
  · simp [Except.toOption]
  · exact fun h => ⟨index, rfl, of_decide_eq_true h⟩

end CompilationUnit

/-! ### A sample -/

/-- The tree of a program, given by the parent, the kind and the text of each further node. -/
def ParseTree.ofRows (rows : List (Nat × NodeKind × String)) : ParseTree :=
  rows.foldl (fun t (parent, kind, text) =>
      if h : parent < t.size then t.addChild ⟨parent⟩ h kind (.made text) false else t)
    (.ofRoot .program (.made "") ["sample.p"])

/-- A temp-table `tt` with a field `f`, and a procedure that asks for a record of it and displays
the field. -/
def sampleTree : ParseTree := .ofRows [
  (0, .defineTempTable, ""), (1, .identifier, "tt"), (1, .tableField, ""), (3, .identifier, "f"),
  (0, .procedureStatement, ""), (5, .identifier, "p"), (5, .recordFunction, ""),
  (7, .record, "tt"), (5, .displayStatement, ""), (9, .field, "f")]

end AblResolve
