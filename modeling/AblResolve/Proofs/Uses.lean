import AblResolve.Proofs.Settled
/-!
The uses of a symbol that the annotations of a tree stand for. Each node stands for so many uses
of a symbol, and the total over the tree changes only with what is written on single nodes.
-/
namespace AblResolve

/-! ### Counting in lists -/

theorem countP_of_change {α : Type} {f g : α → Bool} {k : α} {l : List α} (nodup : l.Nodup)
    (mem : k ∈ l) (same : ∀ m, m ≠ k → g m = f m) :
    l.countP g + (f k).toNat = l.countP f + (g k).toNat := by
  induction l with
  | nil => cases mem
  | cons m rest ih =>
    obtain ⟨hm, nodup⟩ := List.nodup_cons.1 nodup
    rw [List.countP_cons, List.countP_cons]
    rcases List.mem_cons.1 mem with rfl | hk
    · have hrest : rest.countP g = rest.countP f := by
        refine List.countP_congr fun m hmem => ?_
        rw [same m fun h => hm (h ▸ hmem)]
      rw [hrest]
      cases f k <;> cases g k <;> simp
    · have hne : m ≠ k := by
        rintro rfl
        exact hm hk
      have := ih nodup hk
      rw [same m hne]
      omega

theorem Arena.nodup_ids {e : Entity} {α : Type} (a : Arena e α) : a.ids.Nodup :=
  List.pairwise_map.2 (List.nodup_range.imp fun hne h => hne (congrArg Id.val h))

namespace Walk

open ParseTree UnitIndex

/-! ### What one node stands for -/

section Node

variable (t : ParseTree) (x : UnitIndex) (s : SymbolId) (q : Qualifier) (n : NodeId)
  (a : Annotation)

/-- A record, a field or a member that stands for `s` and is used as `q`. -/
def usesName : Bool :=
  n ≠ root ∧ (t.kind n = .record ∨ t.kind n = .field ∨ t.kind n = .identifier) ∧
    a.symbol = some s ∧ a.qualifier = some q

/-- A field of buffer `s` that is used as `q`. -/
def usesBuffer : Bool :=
  t.kind n = .field ∧ a.qualifier = some q ∧ (a.symbol.bind x.asFieldBuffer?).any (·.buffer = s)

/-- A widget that stands for `s`; widgets are used as symbols. -/
def usesWidget : Bool :=
  n ≠ root ∧ t.kind n = .widgetName ∧ a.symbol = some s ∧ q = .symbol

/-- A field that stands for `s` and is passed as a handle in mode `q`, which writes. -/
def usesHandle : Bool :=
  t.kind n = .field ∧ a.symbol = some s ∧ q.isWrite ∧ (t.parent? n).any fun handle =>
    (t.kind handle).isHandle ∧ (t.parent? handle).any fun argument =>
      t.kind argument = .runParameter ∧ argumentQualifier t argument = q

/-- The uses that are counted when the name on the node is found. -/
def usesFound : Nat :=
  (usesName t s q n a).toNat + (usesBuffer t x s q n a).toNat + (usesWidget t s q n a).toNat

/-- All uses that a node stands for. -/
def usesAt : Nat := usesFound t x s q n a + (usesHandle t s q n a).toNat

end Node

section Node

variable {t : ParseTree} {x : UnitIndex} {s : SymbolId} {q : Qualifier} {n : NodeId}
  {a : Annotation}

theorem usesHandle_of_kind (h : t.kind n ≠ .field) : usesHandle t s q n a = false := by
  simp [usesHandle, h]

/-- A name on which no qualifier is written has not been found. -/
theorem usesFound_of_qualifier (h : a.qualifier = none) (hn : t.kind n ≠ .widgetName) :
    usesFound t x s q n a = 0 := by
  simp [usesFound, usesName, usesBuffer, usesWidget, h, hn]

theorem usesFound_of_meaning (h : meaning a = (none, none, none)) :
    usesFound t x s q n a = 0 := by
  simp only [meaning, Prod.mk.injEq] at h
  simp [usesFound, usesName, usesBuffer, usesWidget, h]

end Node

/-! ### What a tree stands for -/

/-- The uses that the nodes of a tree stand for. -/
def uses (t : ParseTree) (w : Walk) (s : SymbolId) (q : Qualifier) : Nat :=
  t.nodes.ids.countP (fun n => usesName t s q n (w.notes.get n)) +
  t.nodes.ids.countP (fun n => usesBuffer t w.index s q n (w.notes.get n)) +
  t.nodes.ids.countP (fun n => usesWidget t s q n (w.notes.get n)) +
  t.nodes.ids.countP (fun n => usesHandle t s q n (w.notes.get n))

/-- The uses of a symbol that have been counted. -/
def noted (w : Walk) (s : SymbolId) (q : Qualifier) : Nat := (w.index.references s).get q

/-- A node stands for the same uses in two states. -/
structure SameUses (t : ParseTree) (s : SymbolId) (q : Qualifier) (w w' : Walk) (n : NodeId) :
    Prop where
  name : usesName t s q n (w'.notes.get n) = usesName t s q n (w.notes.get n)
  buffer : usesBuffer t w'.index s q n (w'.notes.get n) =
    usesBuffer t w.index s q n (w.notes.get n)
  widget : usesWidget t s q n (w'.notes.get n) = usesWidget t s q n (w.notes.get n)
  handle : usesHandle t s q n (w'.notes.get n) = usesHandle t s q n (w.notes.get n)

section Tree

variable {t : ParseTree} {w w' : Walk} {s : SymbolId} {q : Qualifier} {n k : NodeId}

/-- What a node stands for depends on its meaning. -/
theorem SameUses.of_meaning (same : meaning (w'.notes.get n) = meaning (w.notes.get n))
    (ext : w.index.Extends w'.index) (hw : w.InRange) : SameUses t s q w w' n := by
  simp only [meaning, Prod.mk.injEq] at same
  obtain ⟨hsymbol, hqualifier, -⟩ := same
  have hbuffer : (w.notes.get n).symbol.bind w'.index.asFieldBuffer? =
      (w.notes.get n).symbol.bind w.index.asFieldBuffer? := by
    cases hi : (w.notes.get n).symbol with
    | none => rfl
    | some i => exact ext.asFieldBuffer?_eq (hw n i hi)
  constructor
  · simp only [usesName, hsymbol, hqualifier]
  · simp only [usesBuffer, hsymbol, hqualifier, hbuffer]
  · simp only [usesWidget, hsymbol]
  · simp only [usesHandle, hsymbol]

/-- Only names stand for uses. -/
theorem SameUses.of_kind (h : (t.kind n).isName = false) (hn : t.kind n ≠ .field) :
    SameUses t s q w w' n := by
  have hrecord := NodeKind.ne_record h
  have hwidget : t.kind n ≠ .widgetName := fun hk => by simp [hk] at h
  have hidentifier : t.kind n ≠ .identifier := fun hk => by simp [hk] at h
  constructor
  · simp [usesName, hrecord, hn, hidentifier]
  · simp [usesBuffer, hn]
  · simp [usesWidget, hwidget]
  · simp [usesHandle, hn]

theorem uses_of_change (hk : k.val < t.size) (same : ∀ n, n ≠ k → SameUses t s q w w' n) :
    uses t w' s q + usesAt t w.index s q k (w.notes.get k) =
      uses t w s q + usesAt t w'.index s q k (w'.notes.get k) := by
  have change : ∀ {f g : NodeId → Bool}, (∀ n, n ≠ k → g n = f n) →
      t.nodes.ids.countP g + (f k).toNat = t.nodes.ids.countP f + (g k).toNat :=
    countP_of_change (Arena.nodup_ids _) (Arena.mem_ids.2 hk)
  have hname := change fun n hn => (same n hn).name
  have hbuffer := change fun n hn => (same n hn).buffer
  have hwidget := change fun n hn => (same n hn).widget
  have hhandle := change fun n hn => (same n hn).handle
  unfold uses usesAt usesFound
  omega

theorem uses_congr (same : ∀ n, SameUses t s q w w' n) : uses t w' s q = uses t w s q := by
  unfold uses
  simp only [(same _).name, (same _).buffer, (same _).widget, (same _).handle]

theorem uses_eq_zero (none : ∀ n, usesAt t w.index s q n (w.notes.get n) = 0) :
    uses t w s q = 0 := by
  have each : ∀ n, ((usesName t s q n (w.notes.get n) = false ∧
      usesBuffer t w.index s q n (w.notes.get n) = false) ∧
      usesWidget t s q n (w.notes.get n) = false) ∧
      usesHandle t s q n (w.notes.get n) = false := by
    intro n
    have := none n
    simpa only [usesAt, usesFound, Nat.add_eq_zero_iff, Bool.toNat_eq_zero] using this
  simp [uses, each]

end Tree

end Walk

end AblResolve
