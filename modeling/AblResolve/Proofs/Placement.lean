import AblResolve.Proofs.Moves
import AblResolve.Proofs.Subtree
/-!
Where clauses and definitions may stand. `Misfit` says exactly when a node is misplaced at the
moment the walk is at it, in terms of what is open then. `WellPlaced` says it of a tree alone: in
a well placed tree every node that is visited fits what is open.
-/
namespace AblResolve

namespace NodeKind

/-- The clauses that apply to the table being defined. -/
def isTableClause : NodeKind → Bool
  | tableLike | tableUseIndex | tableField | tableIndex => true
  | _ => false

def isTableDefinition : NodeKind → Bool
  | defineTempTable | defineWorkTable => true
  | _ => false

def isBufferDefinition : NodeKind → Bool
  | defineBuffer | bufferParameter => true
  | _ => false

/-- The definitions that are open while any of their children is visited. -/
def takesClauses : NodeKind → Bool
  | defineVariable | defineParameter | functionParameter | tableField => true
  | _ => false

/-- The kinds for which it matters where a node stands. -/
def needsPlace (kind : NodeKind) : Bool :=
  kind.isTypeClause || kind.isTableClause || kind.isTableDefinition || kind.isBufferDefinition

/-- The handles that are passed to a call. -/
def isHandle : NodeKind → Bool
  | parameterTableHandle | parameterDatasetHandle => true
  | _ => false

/-- The nodes that are neither definitions with clauses or tables nor handles. -/
def isOrdinary (kind : NodeKind) : Bool :=
  !(kind.takesClauses || kind == defineProperty || kind == catchBlock || kind.isTableDefinition ||
    kind.isHandle)

theorem not_isHandle_of_isOrdinary {kind : NodeKind} (h : kind.isOrdinary) :
    kind.isHandle = false := by
  simp only [isOrdinary, Bool.not_eq_true', Bool.or_eq_false_iff] at h
  exact h.2

end NodeKind

namespace ParseTree

/-- Node `p` is a definition that is open when its child `c` is visited: a property up to its
first accessor, the variable of a CATCH block up to its first AS clause. -/
inductive OpenFor (t : ParseTree) (p c : NodeId) : Prop
  | definition (kind : (t.kind p).takesClauses)
  | property (kind : t.kind p = .defineProperty)
      (early : c ∈ (t.children p).takeWhile fun c => t.kind c ≠ .propertyAccessor)
  | catch (kind : t.kind p = .catchBlock)
      (early : c ∈ (t.children p).takeWhile (fun c => t.kind c ≠ .asClause) ∨
        t.childOfKind? p .asClause = some c)

/-- The root is not entered, so it does not count as a definition of what is below it. -/
structure WellPlaced (t : ParseTree) : Prop where
  clause : ∀ {p c}, c ∈ t.children p → (t.kind c).isTypeClause → p ≠ root ∧ t.OpenFor p c
  tableClause : ∀ {p c}, c ∈ t.children p → (t.kind c).isTableClause →
    p ≠ root ∧ (t.kind p).isTableDefinition
  table : ∀ {a c}, t.Within a c → c ≠ a → (t.kind a).isTableDefinition →
    (t.kind c).isTableDefinition = false
  buffer : ∀ {n}, (t.kind n).isBufferDefinition → (t.childOfKind? n .record).isSome

theorem wellPlaced_of_kinds {t : ParseTree}
    (h : ∀ i < t.size, (t.kind ⟨i⟩).needsPlace = false) : t.WellPlaced := by
  have free : ∀ n, (t.kind n).needsPlace = false := by
    intro n
    by_cases hn : n.val < t.size
    · exact h n.val hn
    · have hnone : t.nodes.get? n = none := by simpa using mt Arena.get?_isSome_iff.1 hn
      rw [kind, node?, hnone]
      rfl
  simp only [NodeKind.needsPlace, Bool.or_eq_false_iff] at free
  refine ⟨fun _ hc => ?_, fun _ hc => ?_, fun _ _ _ => (free _).1.2, fun hn => ?_⟩
  · simp [(free _).1.1.1] at hc
  · simp [(free _).1.1.2] at hc
  · simp [(free _).2] at hn

end ParseTree

namespace Walk

/-- Why node `n` is misplaced when the walk is at it and `F` is open. -/
inductive Misfit (t : ParseTree) (n : NodeId) (F : Frame) : Misplacement → Prop
  | asClause (kind : t.kind n = .asClause) (none : F.definitions = []) : Misfit t n F .asClause
  | likeClause (kind : t.kind n = .likeClause) (none : F.definitions = []) :
      Misfit t n F .likeClause
  | extentClause (kind : t.kind n = .extentClause) (none : F.definitions = []) :
      Misfit t n F .extentClause
  | tableClause (kind : (t.kind n).isTableClause) (none : F.table = none) :
      Misfit t n F .tableClause
  | nestedTable (kind : (t.kind n).isTableDefinition) (some : F.table.isSome) :
      Misfit t n F .nestedTable
  | bufferWithoutTable (kind : (t.kind n).isBufferDefinition)
      (none : t.childOfKind? n .record = none) : Misfit t n F .bufferWithoutTable

/-- What is open suits node `n`; it does not matter for the root. -/
structure Fits (t : ParseTree) (n : NodeId) (F : Frame) : Prop where
  clause : n ≠ ParseTree.root → (t.kind n).isTypeClause → F.definitions ≠ []
  tableClause : n ≠ ParseTree.root → (t.kind n).isTableClause → F.table.isSome
  table : F.table.isSome → ∃ a, t.Within a n ∧ n ≠ a ∧ (t.kind a).isTableDefinition

variable {t : ParseTree} {n c : NodeId} {F F' : Frame}

theorem Fits.not_misfit (wp : t.WellPlaced) (h : Fits t n F) (hn : n ≠ ParseTree.root)
    {m : Misplacement} : ¬ Misfit t n F m := by
  intro misfit
  cases misfit with
  | asClause kind none => exact h.clause hn (by rw [kind]; rfl) none
  | likeClause kind none => exact h.clause hn (by rw [kind]; rfl) none
  | extentClause kind none => exact h.clause hn (by rw [kind]; rfl) none
  | tableClause kind none =>
    have := h.tableClause hn kind
    simp [none] at this
  | nestedTable kind some =>
    obtain ⟨a, hwithin, hne, ha⟩ := h.table some
    have := wp.table hwithin hne ha
    simp [kind] at this
  | bufferWithoutTable kind none =>
    have := wp.buffer kind
    simp [none] at this

/-- What is open below a node that fits: what was open above it, and what it opened itself. -/
theorem Fits.child (wp : t.WellPlaced) (h : Fits t n F) (hc : c ∈ t.children n)
    (clause : t.OpenFor n c → F'.definitions ≠ [])
    (table : F'.table = F.table ∧ (t.kind n).isTableDefinition = false ∨
      F'.table.isSome ∧ (t.kind n).isTableDefinition = true) : Fits t c F' where
  clause _ hkind := clause (wp.clause hc hkind).2
  tableClause _ hkind := by
    have hn := (wp.tableClause hc hkind).2
    rcases table with ⟨-, hfalse⟩ | ⟨hsome, -⟩
    · simp [hn] at hfalse
    · exact hsome
  table hsome := by
    have hlt := (ParseTree.lt_of_mem_children hc).1
    have hne := ParseTree.ne_of_mem_children hc
    have hwithin := ParseTree.within_of_mem_children hc
    rcases table with ⟨hsame, -⟩ | ⟨-, hn⟩
    · obtain ⟨a, ha, -, hkind⟩ := h.table (hsame ▸ hsome)
      refine ⟨a, ha.trans hwithin, ?_, hkind⟩
      rintro rfl
      have := ha.le
      omega
    · exact ⟨n, hwithin, hne, hn⟩

/-- Below an ordinary node. -/
theorem Fits.ordinary (wp : t.WellPlaced) (h : Fits t n F) (hc : c ∈ t.children n)
    (hn : (t.kind n).isOrdinary) (table : F'.table = F.table) : Fits t c F' := by
  simp only [NodeKind.isOrdinary, Bool.not_eq_true', Bool.or_eq_false_iff,
    beq_eq_false_iff_ne] at hn
  obtain ⟨⟨⟨⟨hclauses, hproperty⟩, hcatch⟩, htable⟩, -⟩ := hn
  refine h.child wp hc ?_ (.inl ⟨table, htable⟩)
  intro hopen
  cases hopen with
  | definition kind => simp [hclauses] at kind
  | property kind => exact absurd kind hproperty
  | «catch» kind => exact absurd kind hcatch

/-- Below a definition of something other than a table. -/
theorem Fits.definition (wp : t.WellPlaced) (h : Fits t n F) (hc : c ∈ t.children n)
    (hn : (t.kind n).isTableDefinition = false) (definitions : F'.definitions ≠ [])
    (table : F'.table = F.table) : Fits t c F' :=
  h.child wp hc (fun _ => definitions) (.inl ⟨table, hn⟩)

end Walk

end AblResolve
