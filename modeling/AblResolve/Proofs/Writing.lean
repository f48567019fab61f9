import AblResolve.Proofs.Ends
/-!
On which nodes a computation writes. A computation that fails may have written something before it
does, so both of its ends are looked at.
-/
namespace AblResolve.Walk

variable {α β : Type} {P P' : NodeId → Prop} {w w' w'' : Walk}

/-- Outside of `P`, the same is written on the tree in both states. -/
def SameOff (P : NodeId → Prop) (w w' : Walk) : Prop :=
  ∀ k, ¬ P k → w'.notes.get k = w.notes.get k

/-- Begun in `w`, the computation writes on nodes in `P` only, however it ends. -/
def WritesOn (P : NodeId → Prop) (m : WalkM α) (w : Walk) : Prop :=
  Ends m w (fun _ => SameOff P w) fun _ => SameOff P w

/-- Wherever it begins, the computation writes on nodes in `P` only. -/
def Writes (P : NodeId → Prop) (m : WalkM α) : Prop := ∀ w, WritesOn P m w

theorem SameOff.refl (w : Walk) : SameOff P w w := fun _ _ => rfl

theorem SameOff.trans (h : SameOff P w w') (k : SameOff P w' w'') : SameOff P w w'' :=
  fun m hm => (k m hm).trans (h m hm)

theorem SameOff.mono (h : SameOff P w w') (sub : ∀ k, P k → P' k) : SameOff P' w w' :=
  fun m hm => h m fun hp => hm (sub m hp)

namespace WritesOn

theorem mono {m : WalkM α} (h : WritesOn P m w) (sub : ∀ k, P k → P' k) : WritesOn P' m w :=
  Ends.mono h (fun _ _ h => h.mono sub) fun _ _ h => h.mono sub

theorem bind {m : WalkM β} {f : β → WalkM α} (h : WritesOn P m w)
    (k : ∀ b v, m w = .ok b v → WritesOn P (f b) v) : WritesOn P (m >>= f) w := by
  unfold WritesOn at h ⊢
  rw [ends_bind]
  unfold Ends at h ⊢
  cases hm : m w with
  | error f v =>
    rw [hm] at h
    exact h
  | ok b v =>
    rw [hm] at h
    exact Ends.mono (k b v hm) (fun _ _ => h.trans) fun _ _ => h.trans

theorem tryCatch {m : WalkM Unit} {g : Fault → WalkM Unit} (h : WritesOn P m w)
    (k : ∀ f, Writes P (g f)) : WritesOn P (tryCatch m g) w := by
  unfold WritesOn at h ⊢
  rw [ends_tryCatch]
  refine Ends.mono h (fun f v first => ?_) fun _ _ => id
  exact Ends.mono (k f v) (fun _ _ => first.trans) fun _ _ => first.trans

end WritesOn

namespace Writes

theorem pure (a : α) : Writes P (pure a : WalkM α) := fun w => SameOff.refl w

theorem throw (f : Fault) : Writes P (throw f : WalkM α) := fun w => SameOff.refl w

theorem bind {m : WalkM β} {f : β → WalkM α} (h : Writes P m) (k : ∀ b, Writes P (f b)) :
    Writes P (m >>= f) :=
  fun w => (h w).bind fun b v _ => k b v

theorem forM {bs : List β} {f : β → WalkM PUnit} (round : ∀ b ∈ bs, Writes P (f b)) :
    Writes P (bs.forM f) := by
  induction bs with
  | nil => exact .pure _
  | cons b bs ih =>
    refine (round b List.mem_cons_self).bind fun _ => ?_
    exact ih fun b hb => round b (List.mem_cons_of_mem _ hb)

theorem get {f : Walk → WalkM α} (k : ∀ w, Writes P (f w)) : Writes P (get >>= f) :=
  fun w => k w w

theorem modify {f : Walk → Walk} (notes : ∀ w, (f w).notes = w.notes) : Writes P (modify f) :=
  fun w k _ => congrArg (·.get k) (notes w)

theorem annotate {n : NodeId} (here : P n) (f : Annotation → Annotation) :
    Writes P (annotate n f) := by
  intro w k hk
  have hne : n ≠ k := by
    rintro rfl
    exact hk here
  show (w.notes.update n f).get k = _
  rw [Annotations.get_update, if_neg hne]

end Writes

end AblResolve.Walk
