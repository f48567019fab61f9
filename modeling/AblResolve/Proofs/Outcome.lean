import AblResolve.Proofs.Closing
/-!
How analyses end. On a tree on which nothing is written, an analysis gives an index, meets a
record that names no table, meets a misplaced node, or tries to close a definition inside of which
the variable of a CATCH block has been left open. Nothing else can happen, and the last does
exactly if a record names no table while such a variable is open inside of another definition.
-/
namespace AblResolve

namespace Walk

open UnitIndex ParseTree

variable {env : Env} {notes : Annotations}

/-- In a well placed tree, every node that is entered fits what is open. -/
theorem not_misfit (wp : env.tree.WellPlaced) {k : NodeId} {v : Walk} {m : Misplacement}
    (he : (k, v) ∈ unitEntries env notes) : ¬ Misfit env.tree k v.frame m := by
  obtain ⟨-, hroot, fits⟩ := unitEntries_keep env notes
    (P := fun k v => k ≠ root ∧ Fits env.tree k v.frame)
    (fun began => ⟨ne_root_of_mem_children began.child, began.fits wp (fits_start env notes)⟩)
    (fun h began => ⟨ne_root_of_mem_children began.child, began.fits wp h.2⟩) (k, v) he
  exact fits.not_misfit wp hroot

/-- When a walk over a tree on which nothing is written tries to close a definition that is not
the innermost one. -/
theorem visitUnit_definitionOrder (size : Nat) :
    (∃ inner closing w, visitUnit env (start env (.blank size)) =
      .error (.breach (.definitionOrder inner closing)) w) ↔
    ∃ r v, (r, v) ∈ unitEntries env (.blank size) ∧ NamesNone env r v ∧
      ¬ Orderly env.tree v.index v.openDefinitions := by
  have closes := closes_visitUnit env (.blank size)
  have started : (start env (.blank size)).openDefinitions = [] := rfl
  constructor
  · rintro ⟨inner, closing, w, hw⟩
    obtain ⟨r, v, he, hnone⟩ := (closes.only _ w hw).resolve_right (by simp)
    have fails := closes.fails r v he hnone
    rw [hw] at fails
    cases fails with
    | disorder opened disorderly =>
      rw [started, List.append_nil] at opened
      exact ⟨r, v, he, hnone, opened ▸ disorderly⟩
  · rintro ⟨r, v, he, hnone, disorderly⟩
    have fails := closes.fails r v he hnone
    generalize visitUnit env (start env (.blank size)) = result at fails ⊢
    cases fails with
    | closed opened orderly =>
      rw [started, List.append_nil] at opened
      exact absurd (opened ▸ orderly) disorderly
    | disorder => exact ⟨_, _, _, rfl⟩

end Walk

namespace CompilationUnit

open Walk

variable (catalog : Catalog) (types : TypeRegistry) (options : Options)

theorem analyze_fst_eq_error {u : CompilationUnit} {fault : Fault} :
    let env : Env := { tree := u.tree, catalog, types, options }
    (u.analyze catalog types options).1 = .error fault ↔
      ∃ w, visitUnit env (start env u.notes) = .error fault w := by
  unfold analyze
  dsimp only
  rw [walkUnit_eq]
  split
  · rename_i hw
    simp [hw]
  · rename_i f w hw
    simp [hw]

/-- How the analysis of a tree on which nothing is written ends: with an index, at a record that
names no table, at a clause out of place that has been entered, or, if a CATCH block has left its
variable open inside of another definition, with definitions that are closed out of order. No other
breach occurs. So every number is in range wherever something is looked up under it
(`Breach.dangling`), no stack is read when it is empty, and nothing is added to a table that is
frozen. -/
theorem analyze_ofTree_outcome (tree : ParseTree) :
    let env : Env := { tree, catalog, types, options }
    let entered := unitEntries env (.blank tree.size)
    let outcome := ((ofTree tree).analyze catalog types options).1
    ((∃ index, outcome = .ok index) ∨
      (∃ name file location, outcome = .error (.unresolvedTable name file location)) ∨
      (∃ m k v, outcome = .error (.misplaced m) ∧ (k, v) ∈ entered ∧ Misfit tree k v.frame m) ∨
      ∃ inner closing, outcome = .error (.breach (.definitionOrder inner closing))) ∧
    ((∃ inner closing, outcome = .error (.breach (.definitionOrder inner closing))) ↔
      ∃ r v, (r, v) ∈ entered ∧ NamesNone env r v ∧
        ¬ Orderly tree v.index v.openDefinitions) ∧
    (tree.WellPlaced → ∀ m, outcome ≠ .error (.misplaced m)) := by
  intro env entered outcome
  have ends := ends_visitUnit env (.blank tree.size)
  have failed : ∀ f, outcome = .error f ↔
      ∃ w, visitUnit env (start env (.blank tree.size)) = .error f w :=
    fun f => analyze_fst_eq_error catalog types options
  refine ⟨?_, ?_, ?_⟩
  · cases hw : outcome with
    | ok index => exact .inl ⟨index, rfl⟩
    | error f =>
      obtain ⟨w, hw⟩ := (failed f).1 hw
      cases ends.error hw with
      | misplaced entry passed misfit => exact .inr (.inr (.inl ⟨_, _, _, rfl, entry, misfit⟩))
      | dangling stale => exact absurd (inRange_start env _) stale
      | unresolved => exact .inr (.inl ⟨_, _, _, rfl⟩)
      | disorder => exact .inr (.inr (.inr ⟨_, _, rfl⟩))
  · simp only [failed]
    exact visitUnit_definitionOrder tree.size
  · intro wp m hm
    obtain ⟨w, hw⟩ := (failed _).1 hm
    cases ends.error hw with
    | misplaced entry passed misfit => exact not_misfit wp entry misfit

/-- A variable definition that holds a CATCH block, in which a record names no table. -/
def catchInDefinition : ParseTree := .ofRows [
  (0, .defineVariable, ""), (1, .identifier, "x"), (1, .catchBlock, ""), (3, .record, "nosuch")]

/-- The variable of the CATCH block is still open when the definition around it is to be closed. -/
theorem analyze_ofTree_outcome_catch :
    let env : Env := { tree := catchInDefinition, catalog := {}, types := {}, options := {} }
    let outcome := ((ofTree catchInDefinition).analyze {} {} {}).1
    outcome = .error (.breach (.definitionOrder (some ⟨2⟩) ⟨1⟩)) ∧
      (∃ r v, (r, v) ∈ unitEntries env (.blank catchInDefinition.size) ∧ NamesNone env r v ∧
        ¬ Orderly catchInDefinition v.index v.openDefinitions) ∧
      catchInDefinition.WellPlaced ∧ ∀ m, outcome ≠ .error (.misplaced m) := by
  intro env outcome
  have houtcome : outcome = .error (.breach (.definitionOrder (some ⟨2⟩) ⟨1⟩)) := by
    decide +kernel
  have wp : catchInDefinition.WellPlaced := ParseTree.wellPlaced_of_kinds (by decide)
  obtain ⟨-, disorder, placed⟩ := analyze_ofTree_outcome {} {} {} catchInDefinition
  exact ⟨houtcome, disorder.1 ⟨_, _, houtcome⟩, wp, placed wp⟩

end CompilationUnit

end AblResolve
