import AblResolve.Walk.Symbols
/-!
How a step of a walk ends. `Ends m w E Q` runs `m` in state `w`: a result satisfies `Q`, a fault
`E`, each together with the state that is left.
-/
namespace AblResolve.Walk

variable {α β : Type} {w : Walk} {E E' : Fault → Walk → Prop} {Q : α → Walk → Prop}

def Ends (m : WalkM α) (w : Walk) (E : Fault → Walk → Prop) (Q : α → Walk → Prop) : Prop :=
  match m w with
  | .ok a w' => Q a w'
  | .error fault w' => E fault w'

/-- No fault. -/
def Never (_ : Fault) (_ : Walk) : Prop := False

theorem Ends.mono {m : WalkM α} {Q' : α → Walk → Prop} (h : Ends m w E Q)
    (fault : ∀ f w', E f w' → E' f w') (result : ∀ a w', Q a w' → Q' a w') : Ends m w E' Q' := by
  unfold Ends at *
  cases hm : m w with
  | ok a w' =>
    rw [hm] at h
    exact result a w' h
  | error f w' =>
    rw [hm] at h
    exact fault f w' h

/-- A step that never fails satisfies any condition on faults. -/
theorem Ends.imp {m : WalkM α} {Q' : α → Walk → Prop} (h : Ends m w Never Q)
    (result : ∀ a w', Q a w' → Q' a w') : Ends m w E Q' :=
  h.mono (fun _ _ => False.elim) result

theorem Ends.ok {m : WalkM α} {a : α} {w' : Walk} (h : Ends m w E Q) (hm : m w = .ok a w') :
    Q a w' := by
  unfold Ends at h
  rwa [hm] at h

theorem Ends.error {m : WalkM α} {f : Fault} {w' : Walk} (h : Ends m w E Q)
    (hm : m w = .error f w') : E f w' := by
  unfold Ends at h
  rwa [hm] at h

/-- A step that never fails gives a result. -/
theorem Ends.exists_ok {m : WalkM α} (h : Ends m w Never Q) :
    ∃ a w', m w = .ok a w' ∧ Q a w' := by
  unfold Ends at h
  cases hm : m w with
  | ok a w' =>
    rw [hm] at h
    exact ⟨a, w', rfl, h⟩
  | error f w' =>
    rw [hm] at h
    exact h.elim

/-- A step that gives a result, found out by running it. -/
theorem exists_ok_of_run' {m : WalkM α} (h : (m.run' w).isSome) : ∃ a w', m w = .ok a w' := by
  cases hm : m w with
  | ok a w' => exact ⟨a, w', rfl⟩
  | error f w' =>
    delta EStateM.run' EStateM.run at h
    rw [hm] at h
    cases h

/-! ### Sequencing -/

@[simp] theorem ends_pure (a : α) : Ends (pure a) w E Q ↔ Q a w := Iff.rfl

@[simp] theorem ends_bind (m : WalkM β) (f : β → WalkM α) :
    Ends (m >>= f) w E Q ↔ Ends m w E fun b w' => Ends (f b) w' E Q := by
  show (match EStateM.bind m f w with | .ok a w' => Q a w' | .error fault w' => E fault w') ↔ _
  unfold EStateM.bind Ends
  cases m w <;> rfl

@[simp] theorem ends_map (m : WalkM β) (f : β → α) :
    Ends (f <$> m) w E Q ↔ Ends m w E fun b w' => Q (f b) w' := by
  show (match EStateM.map f m w with | .ok a w' => Q a w' | .error fault w' => E fault w') ↔ _
  unfold EStateM.map Ends
  cases m w <;> rfl

theorem ends_tryCatch {m : WalkM Unit} {h : Fault → WalkM Unit} {Q : Unit → Walk → Prop} :
    Ends (tryCatch m h) w E Q ↔ Ends m w (fun f w' => Ends (h f) w' E Q) Q := by
  have hcatch : tryCatch m h w = match m w with
      | .error f w' => h f w'
      | ok => ok := by
    show EStateM.tryCatch (δ := PUnit) m h w = _
    unfold EStateM.tryCatch
    cases m w <;> rfl
  unfold Ends
  rw [hcatch]
  cases m w <;> rfl

theorem ends_forM_cons {f : β → WalkM PUnit} {Q : PUnit → Walk → Prop} (b : β) (bs : List β) :
    Ends ((b :: bs).forM f) w E Q ↔ Ends (f b) w E fun _ w' => Ends (bs.forM f) w' E Q :=
  ends_bind (f b) fun _ => bs.forM f

/-- What every round of a loop keeps, the loop keeps. -/
theorem ends_forM {f : β → WalkM PUnit} {bs : List β} {I : Walk → Prop}
    (round : ∀ b ∈ bs, ∀ w, I w → Ends (f b) w E fun _ w' => I w') (h : I w) :
    Ends (bs.forM f) w E fun _ w' => I w' := by
  induction bs generalizing w with
  | nil => exact h
  | cons b bs ih =>
    rw [ends_forM_cons]
    refine (round b List.mem_cons_self w h).mono (fun _ _ => id) fun _ w' h' => ?_
    exact ih (fun b hb => round b (List.mem_cons_of_mem _ hb)) h'

/-! ### Results of sequences -/

section Results

variable {w' v : Walk} {m m' : WalkM β} {f g : β → WalkM α}

theorem bind_ok {a : α} :
    (m >>= f) w = .ok a w' ↔ ∃ b v, m w = .ok b v ∧ f b v = .ok a w' := by
  show EStateM.bind m f w = .ok a w' ↔ _
  rw [EStateM.bind]
  cases m w with
  | ok b v =>
    refine ⟨fun h => ⟨b, v, rfl, h⟩, ?_⟩
    rintro ⟨_, _, ⟨⟩, h⟩
    exact h
  | error _ _ => exact ⟨nofun, nofun⟩

theorem bind_of_ok {b : β} (h : m w = .ok b v) : (m >>= f) w = f b v := by
  show EStateM.bind m f w = f b v
  rw [EStateM.bind, h]

theorem bind_congr_of_ok (h : ∀ b v, m w = .ok b v → f b v = g b v) :
    (m >>= f) w = (m >>= g) w := by
  show EStateM.bind m f w = EStateM.bind m g w
  rw [EStateM.bind, EStateM.bind]
  cases hm : m w with
  | ok b v => exact h b v hm
  | error _ _ => rfl

theorem bind_congr_state (h : m w = m' v) : (m >>= f) w = (m' >>= f) v := by
  show EStateM.bind m f w = EStateM.bind m' f v
  rw [EStateM.bind, EStateM.bind, h]

theorem tryCatch_congr {m m' : WalkM Unit} {h : Fault → WalkM Unit} (same : m w = m' w) :
    tryCatch m h w = tryCatch m' h w := by
  show EStateM.tryCatch (δ := PUnit) m h w = EStateM.tryCatch (δ := PUnit) m' h w
  unfold EStateM.tryCatch
  rw [same]

end Results

/-! ### Reading and writing the state -/

@[simp] theorem ends_get {Q : Walk → Walk → Prop} : Ends get w E Q ↔ Q w w := Iff.rfl

@[simp] theorem ends_modify {f : Walk → Walk} {Q : PUnit → Walk → Prop} :
    Ends (modify f) w E Q ↔ Q ⟨⟩ (f w) := Iff.rfl

@[simp] theorem ends_breach (b : Breach) : Ends (breach b : WalkM α) w E Q ↔ E (.breach b) w :=
  Iff.rfl

theorem ends_demand {condition : Bool} {b : Breach} {Q : PUnit → Walk → Prop}
    (h : condition = true) : Ends (demand condition b) w E Q ↔ Q ⟨⟩ w := by
  rw [demand, if_pos h]
  exact ends_pure _

@[simp] theorem ends_theIndex {Q : UnitIndex → Walk → Prop} :
    Ends theIndex w E Q ↔ Q w.index w := Iff.rfl

@[simp] theorem ends_annotation {n : NodeId} {Q : Annotation → Walk → Prop} :
    Ends ( annotation n) w E Q ↔ Q (w.notes.get n) w := Iff.rfl

@[simp] theorem ends_modifyIndex {f : UnitIndex → UnitIndex} {Q : PUnit → Walk → Prop} :
    Ends (modifyIndex f) w E Q ↔ Q ⟨⟩ { w with index := f w.index } := Iff.rfl

@[simp] theorem ends_annotate {n : NodeId} {f : Annotation → Annotation}
    {Q : PUnit → Walk → Prop} :
    Ends (annotate n f) w E Q ↔ Q ⟨⟩ { w with notes := w.notes.update n f } := Iff.rfl

@[simp] theorem ends_report {d : Diagnostic} {Q : PUnit → Walk → Prop} :
    Ends (report d) w E Q ↔ Q ⟨⟩ { w with
      index := { w.index with diagnostics := w.index.diagnostics.add d } } := Iff.rfl

/-! ### Elements by number -/

theorem ends_fetch {e : Entity} {a : Arena e α} {i : Id e} {v : α} (h : a.get? i = some v) :
    Ends (fetch a i) w E Q ↔ Q v w := by
  unfold fetch
  rw [h]
  exact ends_pure v

theorem ends_symbolAt {s : SymbolId} {v : Symbol} {Q : Symbol → Walk → Prop}
    (h : w.index.symbols.get? s = some v) : Ends (symbolAt s) w E Q ↔ Q v w := by
  unfold symbolAt
  rw [ends_bind, ends_theIndex, ends_fetch h]

theorem ends_symbolAt_none {s : SymbolId} {Q : Symbol → Walk → Prop}
    (h : ¬ s.val < w.index.symbols.size) : Ends (symbolAt s) w E Q ↔
      E (.breach (.dangling .symbol s.val w.index.symbols.size)) w := by
  have hnone : w.index.symbols.get? s = none := by simpa using mt Arena.get?_isSome_iff.1 h
  unfold symbolAt fetch
  rw [ends_bind, ends_theIndex, hnone]
  exact ends_breach _

theorem ends_scopeAt {s : ScopeId} {v : Scope} {Q : Scope → Walk → Prop}
    (h : w.index.scopes.get? s = some v) : Ends (scopeAt s) w E Q ↔ Q v w := by
  unfold scopeAt
  rw [ends_bind, ends_theIndex, ends_fetch h]

theorem ends_blockAt {b : BlockId} {v : Block} {Q : Block → Walk → Prop}
    (h : w.index.blocks.get? b = some v) : Ends (blockAt b) w E Q ↔ Q v w := by
  unfold blockAt
  rw [ends_bind, ends_theIndex, ends_fetch h]

theorem ends_tableAt {t : TableId} {v : Table} {Q : Table → Walk → Prop}
    (h : w.index.tables.get? t = some v) : Ends (tableAt t) w E Q ↔ Q v w := by
  unfold tableAt
  rw [ends_bind, ends_theIndex, ends_fetch h]

theorem ends_fieldAt {f : FieldId} {v : Field} {Q : Field → Walk → Prop}
    (h : w.index.fields.get? f = some v) : Ends (fieldAt f) w E Q ↔ Q v w := by
  unfold fieldAt
  rw [ends_bind, ends_theIndex, ends_fetch h]

theorem ends_indexAt {i : IndexId} {v : TableIndex} {Q : TableIndex → Walk → Prop}
    (h : w.index.indexes.get? i = some v) : Ends (indexAt i) w E Q ↔ Q v w := by
  unfold indexAt
  rw [ends_bind, ends_theIndex, ends_fetch h]

section Update

variable {Q : PUnit → Walk → Prop}

theorem ends_updateSymbol {s : SymbolId} {f : Symbol → Symbol}
    (h : s.val < w.index.symbols.size) :
    Ends (updateSymbol s f) w E Q ↔ Q ⟨⟩ { w with
      index := { w.index with symbols := w.index.symbols.update s f } } := by
  obtain ⟨v, hv⟩ := Option.isSome_iff_exists.1 (Arena.get?_isSome_iff.2 h)
  unfold updateSymbol
  rw [ends_bind, ends_symbolAt hv, ends_modifyIndex]

theorem ends_updateScope {s : ScopeId} {f : Scope → Scope} (h : s.val < w.index.scopes.size) :
    Ends (updateScope s f) w E Q ↔ Q ⟨⟩ { w with
      index := { w.index with scopes := w.index.scopes.update s f } } := by
  obtain ⟨v, hv⟩ := Option.isSome_iff_exists.1 (Arena.get?_isSome_iff.2 h)
  unfold updateScope
  rw [ends_bind, ends_scopeAt hv, ends_modifyIndex]

theorem ends_updateBlock {b : BlockId} {f : Block → Block} (h : b.val < w.index.blocks.size) :
    Ends (updateBlock b f) w E Q ↔ Q ⟨⟩ { w with
      index := { w.index with blocks := w.index.blocks.update b f } } := by
  obtain ⟨v, hv⟩ := Option.isSome_iff_exists.1 (Arena.get?_isSome_iff.2 h)
  unfold updateBlock
  rw [ends_bind, ends_blockAt hv, ends_modifyIndex]

theorem ends_updateTable {t : TableId} {f : Table → Table} (h : t.val < w.index.tables.size) :
    Ends (updateTable t f) w E Q ↔ Q ⟨⟩ { w with
      index := { w.index with tables := w.index.tables.update t f } } := by
  obtain ⟨v, hv⟩ := Option.isSome_iff_exists.1 (Arena.get?_isSome_iff.2 h)
  unfold updateTable
  rw [ends_bind, ends_tableAt hv, ends_modifyIndex]

theorem ends_updateField {f : FieldId} {g : Field → Field} (h : f.val < w.index.fields.size) :
    Ends (updateField f g) w E Q ↔ Q ⟨⟩ { w with
      index := { w.index with fields := w.index.fields.update f g } } := by
  obtain ⟨v, hv⟩ := Option.isSome_iff_exists.1 (Arena.get?_isSome_iff.2 h)
  unfold updateField
  rw [ends_bind, ends_fieldAt hv, ends_modifyIndex]

theorem ends_updateTableIndex {i : IndexId} {f : TableIndex → TableIndex}
    (h : i.val < w.index.indexes.size) :
    Ends (updateTableIndex i f) w E Q ↔ Q ⟨⟩ { w with
      index := { w.index with indexes := w.index.indexes.update i f } } := by
  obtain ⟨v, hv⟩ := Option.isSome_iff_exists.1 (Arena.get?_isSome_iff.2 h)
  unfold updateTableIndex
  rw [ends_bind, ends_indexAt hv, ends_modifyIndex]

end Update

end AblResolve.Walk
