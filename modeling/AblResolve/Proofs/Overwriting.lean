import AblResolve.Proofs.Writing
import AblResolve.Walk.TableDefinition
/-!
Walks over trees on which different things were written before. What a step writes does not depend
on what it writes over, and hardly any step reads what is written on the tree: such a step is
blind. Begun on two trees that differ in what was written on them, it comes to the same, and writes
the same in the same places. `Annotations.Kept` is what is left of the difference: every entry is
either the same on both trees, or it is on each tree what it was before. Where a step writes is
found out on the way, since the same walk through its parts shows both.
-/
namespace AblResolve

/-! ### Entries -/

/-- Two values that were `o` and `o'` at first have become the same, or neither has changed. -/
def Kept {α : Type} (o o' a a' : α) : Prop := a = a' ∨ a = o ∧ a' = o'

namespace Kept

variable {α : Type} {o o' a a' : α}

theorem same (a : α) : Kept o o' a a := .inl rfl

theorem start : Kept o o' o o' := .inr ⟨rfl, rfl⟩

/-- A flag that is raised on both sides or left as it is. -/
theorem or {o o' a a' : Bool} (h : Kept o o' a a') (b : Bool) : Kept o o' (a || b) (a' || b) := by
  cases b with
  | true => exact .inl (by simp)
  | false => simpa using h

theorem eq (h : Kept o a a a') : a' = a := by
  rcases h with h | h
  · exact h.symm
  · exact h.2

end Kept

/-- The entries of two annotations, compared one by one. -/
structure Annotation.Kept (o o' a a' : Annotation) : Prop where
  symbol : AblResolve.Kept o.symbol o'.symbol a.symbol a'.symbol
  scope : AblResolve.Kept o.scope o'.scope a.scope a'.scope
  block : AblResolve.Kept o.block o'.block a.block a'.block
  bufferScope : AblResolve.Kept o.bufferScope o'.bufferScope a.bufferScope a'.bufferScope
  store : AblResolve.Kept o.store o'.store a.store a'.store
  qualifier : AblResolve.Kept o.qualifier o'.qualifier a.qualifier a'.qualifier
  abbreviated : AblResolve.Kept o.abbreviated o'.abbreviated a.abbreviated a'.abbreviated
  unqualified : AblResolve.Kept o.unqualified o'.unqualified a.unqualified a'.unqualified

theorem Annotation.Kept.start {o o' : Annotation} : Kept o o' o o' :=
  ⟨.start, .start, .start, .start, .start, .start, .start, .start⟩

theorem Annotation.Kept.eq {o a a' : Annotation} (h : Kept o a a a') : a' = a := by
  obtain ⟨symbol, scope, block, bufferScope, store, qualifier, abbreviated, unqualified⟩ := h
  have hs := symbol.eq
  have hc := scope.eq
  have hb := block.eq
  have hu := bufferScope.eq
  have ht := store.eq
  have hq := qualifier.eq
  have ha := abbreviated.eq
  have hn := unqualified.eq
  cases a
  cases a'
  simp_all

/-- The change writes the same whatever it writes over. -/
def Annotation.Overwrites (f : Annotation → Annotation) : Prop :=
  ∀ o o' a a', Annotation.Kept o o' a a' → Annotation.Kept o o' (f a) (f a')

namespace Annotations

/-- Every symbol that is written in `o` is written in `o'`, too. -/
def SymbolsIn (o o' : Annotations) : Prop :=
  ∀ m s, (o.get m).symbol = some s → (o'.get m).symbol = some s

/-- The symbols that are written on two trees alike. -/
def alike (a a' : Annotations) : Annotations :=
  ⟨⟨a.cells.items.mapIdx fun i v =>
    { symbol := if (a'.get ⟨i⟩).symbol = v.symbol then v.symbol else none }⟩⟩

theorem symbolsIn_blank (size : Nat) (a : Annotations) : (blank size).SymbolsIn a := by
  intro m s hs
  simp at hs

theorem symbol_alike (a a' : Annotations) (m : NodeId) : ((a.alike a').get m).symbol =
    if (a'.get m).symbol = (a.get m).symbol then (a.get m).symbol else none := by
  unfold get Arena.get?
  dsimp only [alike]
  rw [Array.getElem?_mapIdx]
  cases h : a.cells.items[m.val]? with
  | none => simp
  | some v => rfl

/-- What was written on two trees at first was `o` and `o'`; since then the same has been written
on both. -/
structure Kept (o o' a a' : Annotations) : Prop where
  reach : ∃ k, a.cells.size = max o.cells.size k ∧ a'.cells.size = max o'.cells.size k
  get : ∀ n, (o.get n).Kept (o'.get n) (a.get n) (a'.get n)

variable {o o' a a' : Annotations}

theorem Kept.start : Kept o o' o o' := ⟨⟨0, by simp, by simp⟩, fun _ => .start⟩

theorem size_update (a : Annotations) (n : NodeId) (f : Annotation → Annotation) :
    (a.update n f).cells.size = max a.cells.size (n.val + 1) := by
  simp only [update, Arena.size_update, Arena.size_pushAll, List.length_replicate]
  omega

theorem Kept.update (h : Kept o o' a a') (n : NodeId) {f : Annotation → Annotation}
    (hf : Annotation.Overwrites f) : Kept o o' (a.update n f) (a'.update n f) := by
  obtain ⟨⟨k, hk, hk'⟩, get⟩ := h
  refine ⟨⟨max k (n.val + 1), ?_, ?_⟩, fun m => ?_⟩
  · rw [size_update]
    omega
  · rw [size_update]
    omega
  · rw [get_update, get_update]
    split
    · exact hf _ _ _ _ (get m)
    · exact get m

/-- What was written is written again: nothing has changed. -/
theorem Kept.eq (h : Kept o a a a') : a' = a := by
  obtain ⟨⟨k, hk, hk'⟩, get⟩ := h
  have size : a'.cells.size = a.cells.size := by omega
  obtain ⟨cells⟩ := a
  obtain ⟨cells'⟩ := a'
  rw [mk.injEq]
  refine Arena.ext_get? fun n => ?_
  have same := (get n).eq
  simp only [Annotations.get] at same
  by_cases hn : n.val < cells.size
  · obtain ⟨v, hv⟩ := Option.isSome_iff_exists.1 (Arena.get?_isSome_iff.2 hn)
    obtain ⟨v', hv'⟩ := Option.isSome_iff_exists.1 (Arena.get?_isSome_iff.2 (size ▸ hn))
    rw [hv, hv'] at same
    rw [hv, hv']
    exact congrArg some same
  · have hnone : cells.get? n = none := by simpa using mt Arena.get?_isSome_iff.1 hn
    have hnone' : cells'.get? n = none := by simpa using mt Arena.get?_isSome_iff.1 (size ▸ hn)
    rw [hnone, hnone']

end Annotations

namespace Walk

variable {α β : Type}

/-! ### Runs over different annotations -/

/-- Two results are the same, but for what was written on the trees before. -/
inductive Concur (o o' : Annotations) :
    EStateM.Result Fault Walk α → EStateM.Result Fault Walk α → Prop
  | ok {a : α} {w : Walk} {N : Annotations} (kept : Annotations.Kept o o' w.notes N) :
      Concur o o' (.ok a w) (.ok a { w with notes := N })
  | error {f : Fault} {w : Walk} {N : Annotations} (kept : Annotations.Kept o o' w.notes N) :
      Concur o o' (.error f w) (.error f { w with notes := N })

/-- Begun in `w`, the computation comes to the same if `o'` was written on the tree at first and
not `o`. -/
def Repeats (o o' : Annotations) (m : WalkM α) (w : Walk) : Prop :=
  ∀ N, Annotations.Kept o o' w.notes N → Concur o o' (m w) (m { w with notes := N })

/-- The computation comes to the same whatever was written on the tree. -/
def Blind (m : WalkM α) : Prop := ∀ o o' w, Repeats o o' m w

namespace Repeats

variable {o o' : Annotations} {w : Walk}

theorem bind {m : WalkM β} {f : β → WalkM α} (h : Repeats o o' m w)
    (k : ∀ b v, m w = .ok b v → Repeats o o' (f b) v) : Repeats o o' (m >>= f) w := by
  intro N kept
  show Concur o o' (EStateM.bind m f w) (EStateM.bind m f { w with notes := N })
  unfold EStateM.bind
  have concur := h N kept
  revert concur k
  generalize m w = r
  generalize m { w with notes := N } = r'
  rintro k (kept | kept)
  · exact k _ _ rfl _ kept
  · exact .error kept

theorem tryCatch {m : WalkM α} {g : Fault → WalkM α} (h : Repeats o o' m w)
    (k : ∀ f v, m w = .error f v → Repeats o o' (g f) v) : Repeats o o' (tryCatch m g) w := by
  intro N kept
  show Concur o o' (EStateM.tryCatch (δ := PUnit) m g w)
    (EStateM.tryCatch (δ := PUnit) m g { w with notes := N })
  unfold EStateM.tryCatch
  have concur := h N kept
  revert concur k
  generalize m w = r
  generalize m { w with notes := N } = r'
  rintro k (kept | kept)
  · exact .ok kept
  · exact k _ _ rfl _ kept

end Repeats

namespace Blind

theorem repeats {m : WalkM α} (h : Blind m) {o o' : Annotations} {w : Walk} : Repeats o o' m w :=
  h o o' w

theorem pure (a : α) : Blind (pure a : WalkM α) := fun _ _ _ _ kept => .ok kept

theorem throw (f : Fault) : Blind (throw f : WalkM α) := fun _ _ _ _ kept => .error kept

theorem bind {m : WalkM β} {f : β → WalkM α} (h : Blind m) (k : ∀ b, Blind (f b)) :
    Blind (m >>= f) :=
  fun o o' w => (h o o' w).bind fun b v _ => k b o o' v

theorem get {f : Walk → WalkM α} (same : ∀ w N, f { w with notes := N } = f w)
    (k : ∀ w, Blind (f w)) : Blind (get >>= f) := by
  intro o o' w N kept
  show Concur o o' (f w w) (f { w with notes := N } { w with notes := N })
  rw [congrFun (same w N) { w with notes := N }]
  exact k w o o' w N kept

theorem modify {f : Walk → Walk} (apart : ∀ w N, f { w with notes := N } = { f w with notes := N })
    (notes : ∀ w, (f w).notes = w.notes) : Blind (modify f) := by
  intro o o' w N kept
  show Concur o o' (.ok PUnit.unit (f w)) (.ok PUnit.unit (f { w with notes := N }))
  rw [apart w N]
  exact .ok ((notes w).symm ▸ kept)

theorem annotate (n : NodeId) {f : Annotation → Annotation} (hf : Annotation.Overwrites f) :
    Blind (annotate n f) :=
  fun _ _ _ _ kept => .ok (kept.update n hf)

end Blind

/-! ### Runs that write in one place -/

/-- The computation comes to the same whatever was written on the tree, and writes on nodes in `P`
only. -/
structure Confined (P : NodeId → Prop) (m : WalkM α) : Prop where
  blind : Blind m
  writes : Writes P m

namespace Confined

variable {P : NodeId → Prop}

/-! ### Sequencing -/

theorem pure (a : α) : Confined P (pure a : WalkM α) := ⟨.pure a, .pure a⟩

theorem throw (f : Fault) : Confined P (throw f : WalkM α) := ⟨.throw f, .throw f⟩

theorem breach (b : Breach) : Confined P (breach b : WalkM α) := .throw _

theorem misplaced (m : Misplacement) : Confined P (misplaced m : WalkM α) := .throw _

theorem bind {m : WalkM β} {f : β → WalkM α} (h : Confined P m) (k : ∀ b, Confined P (f b)) :
    Confined P (m >>= f) :=
  ⟨.bind h.blind fun b => (k b).blind, .bind h.writes fun b => (k b).writes⟩

theorem map {m : WalkM β} (f : β → α) (h : Confined P m) : Confined P (f <$> m) := by
  rw [map_eq_pure_bind]
  exact h.bind fun b => .pure (f b)

theorem ite {c : Prop} [Decidable c] {m m' : WalkM α} (h : Confined P m) (k : Confined P m') :
    Confined P (if c then m else m') := by
  split
  · exact h
  · exact k

theorem when {c : Prop} [Decidable c] {m : WalkM PUnit} (h : Confined P m) :
    Confined P (if c then m else Pure.pure PUnit.unit) :=
  .ite h (.pure _)

/-- Something is done first if that is asked for; either way it goes on. -/
theorem after {c : Prop} [Decidable c] {m : WalkM Unit} {k : Unit → WalkM α} (h : Confined P m)
    (rest : ∀ u, Confined P (k u)) : Confined P (if c then m >>= k else k ()) :=
  .ite (.bind h rest) (rest ())

theorem forM {bs : List β} {f : β → WalkM PUnit} (round : ∀ b ∈ bs, Confined P (f b)) :
    Confined P (bs.forM f) := by
  induction bs with
  | nil => exact .pure _
  | cons b bs ih =>
    refine (round b List.mem_cons_self).bind fun _ => ?_
    exact ih fun b hb => round b (List.mem_cons_of_mem _ hb)

theorem mapM {bs : List β} {f : β → WalkM α} (round : ∀ b, Confined P (f b)) :
    Confined P (bs.mapM f) := by
  induction bs with
  | nil =>
    rw [List.mapM_nil]
    exact .pure _
  | cons b bs ih =>
    rw [List.mapM_cons]
    exact (round b).bind fun _ => ih.bind fun _ => .pure _

/-! ### The state -/

/-- Something is read from the state, but nothing that is written on the tree. -/
theorem get {f : Walk → WalkM α} (same : ∀ w N, f { w with notes := N } = f w)
    (k : ∀ w, Confined P (f w)) : Confined P (get >>= f) :=
  ⟨.get same fun w => (k w).blind, .get fun w => (k w).writes⟩

theorem modify {f : Walk → Walk} (apart : ∀ w N, f { w with notes := N } = { f w with notes := N })
    (notes : ∀ w, (f w).notes = w.notes) : Confined P (modify f) :=
  ⟨.modify apart notes, .modify notes⟩

theorem theIndex : Confined P theIndex := .get (fun _ _ => rfl) fun _ => .pure _

theorem modifyIndex (f : UnitIndex → UnitIndex) : Confined P (modifyIndex f) :=
  .modify (fun _ _ => rfl) fun _ => rfl

theorem report (d : Diagnostic) : Confined P (report d) := .modifyIndex _

theorem annotate {n : NodeId} (here : P n) {f : Annotation → Annotation}
    (hf : Annotation.Overwrites f) : Confined P (annotate n f) :=
  ⟨.annotate n hf, .annotate here f⟩

theorem demand (condition : Bool) (b : Breach) : Confined P (demand condition b) :=
  .ite (.pure _) (.breach b)

theorem qualify (env : Env) (n : NodeId) (q : Qualifier) : Confined P (qualify env n q) :=
  .when (.modify (fun _ _ => rfl) fun _ => rfl)

theorem hint (n : NodeId) (h : TableHint) : Confined P (hint n h) :=
  .modify (fun _ _ => rfl) fun _ => rfl

theorem takeQualifier (env : Env) (n : NodeId) : Confined P (takeQualifier env n) := by
  refine .get (fun _ _ => rfl) fun w => ?_
  refine .bind (.modify (fun _ _ => rfl) fun _ => rfl) fun _ => ?_
  dsimp only [SideTable.take]
  cases w.qualifiers.find? n with
  | some q => exact .pure q
  | none => exact .after (.modifyIndex _) fun _ => .pure _

theorem takeHint (n : NodeId) : Confined P (takeHint n) :=
  .get (fun _ _ => rfl) fun _ => .bind (.modify (fun _ _ => rfl) fun _ => rfl) fun _ => .pure _

/-! ### Elements by number -/

theorem fetch {e : Entity} (a : Arena e α) (i : Id e) : Confined P (fetch a i) := by
  unfold Walk.fetch
  cases a.get? i with
  | some v => exact .pure v
  | none => exact .breach _

theorem symbolAt (s : SymbolId) : Confined P (symbolAt s) := .bind .theIndex fun _ => .fetch _ s

theorem scopeAt (s : ScopeId) : Confined P (scopeAt s) := .bind .theIndex fun _ => .fetch _ s

theorem blockAt (b : BlockId) : Confined P (blockAt b) := .bind .theIndex fun _ => .fetch _ b

theorem tableAt (t : TableId) : Confined P (tableAt t) := .bind .theIndex fun _ => .fetch _ t

theorem fieldAt (f : FieldId) : Confined P (fieldAt f) := .bind .theIndex fun _ => .fetch _ f

theorem indexAt (i : IndexId) : Confined P (indexAt i) := .bind .theIndex fun _ => .fetch _ i

theorem updateSymbol (s : SymbolId) (f : Symbol → Symbol) : Confined P (updateSymbol s f) :=
  .bind (.symbolAt s) fun _ => .modifyIndex _

theorem updateScope (s : ScopeId) (f : Scope → Scope) : Confined P (updateScope s f) :=
  .bind (.scopeAt s) fun _ => .modifyIndex _

theorem updateBlock (b : BlockId) (f : Block → Block) : Confined P (updateBlock b f) :=
  .bind (.blockAt b) fun _ => .modifyIndex _

theorem updateTable (t : TableId) (f : Table → Table) : Confined P (updateTable t f) :=
  .bind (.tableAt t) fun _ => .modifyIndex _

theorem updateField (f : FieldId) (g : Field → Field) : Confined P (updateField f g) :=
  .bind (.fieldAt f) fun _ => .modifyIndex _

theorem updateTableIndex (i : IndexId) (f : TableIndex → TableIndex) :
    Confined P (updateTableIndex i f) :=
  .bind (.indexAt i) fun _ => .modifyIndex _

end Confined

end Walk

end AblResolve
