import AblResolve.Proofs.Trail
/-!
What a walk does to its index, wherever it is. In one stride the index changes, something is opened
or closed, or a name is referred to. The nodes do not matter here, so what holds of an index
however it is built is proved by one case for each sort of stride.
-/
namespace AblResolve

/-- A symbol without the count of its references. -/
def Symbol.uncounted (s : Symbol) : Symbol := { s with references := {} }

namespace UnitIndex

variable {x y z : UnitIndex}

/-- What referring to a name does to an index, whether the name is found or not: references are
counted, or the name is noted as unresolved, perhaps with a finding. -/
structure Refers (x y : UnitIndex) : Prop where
  symbols : ∀ i, (y.symbols.get? i).map Symbol.uncounted = (x.symbols.get? i).map Symbol.uncounted
  rest : y = { x with
    symbols := y.symbols, unresolved := y.unresolved, diagnostics := y.diagnostics }
  unresolved : x.unresolved <+: y.unresolved
  diagnostics : x.diagnostics.all <+: y.diagnostics.all

namespace Refers

theorem refl (x : UnitIndex) : x.Refers x :=
  ⟨fun _ => rfl, rfl, List.prefix_rfl, List.prefix_rfl⟩

theorem trans (h : x.Refers y) (k : y.Refers z) : x.Refers z where
  symbols i := (k.symbols i).trans (h.symbols i)
  rest := by
    rw [k.rest]
    conv_lhs => rw [h.rest]
  unresolved := h.unresolved.trans k.unresolved
  diagnostics := h.diagnostics.trans k.diagnostics

theorem tables (h : x.Refers y) : y.tables = x.tables := by rw [h.rest]

theorem fields (h : x.Refers y) : y.fields = x.fields := by rw [h.rest]

theorem indexes (h : x.Refers y) : y.indexes = x.indexes := by rw [h.rest]

/-- Symbols stay what they are. -/
theorem symbol (h : x.Refers y) {i : SymbolId} {s : Symbol} (hs : x.symbols.get? i = some s) :
    ∃ s', y.symbols.get? i = some s' ∧ s'.uncounted = s.uncounted := by
  have same := h.symbols i
  rw [hs] at same
  exact Option.map_eq_some_iff.1 same

theorem asFieldBuffer? (h : x.Refers y) (i : SymbolId) :
    y.asFieldBuffer? i = x.asFieldBuffer? i := by
  have counts : ∀ z : UnitIndex, z.asFieldBuffer? i =
      ((z.symbols.get? i).map Symbol.uncounted).bind (·.asFieldBuffer?) := by
    intro z
    rw [Option.bind_map]
    rfl
  rw [counts, counts, h.symbols]

end Refers

/-- Referring to names extends an index. -/
theorem Refers.extends (h : x.Refers y) : x.Extends y := by
  have symbol : ∀ {i s}, x.symbols.get? i = some s →
      ∃ s', y.symbols.get? i = some s' ∧ s'.uncounted = s.uncounted := h.symbol
  rw [h.rest]
  refine { Extends.refl x with symbols := ?_, attached := ?_, signatures := ?_ }
  · intro i s hs
    obtain ⟨s', hs', same⟩ := symbol hs
    exact ⟨s', hs', (congrArg Symbol.fixed same :)⟩
  · intro i s hs attached
    obtain ⟨s', hs', same⟩ := symbol hs
    exact ⟨s', hs', (congrArg Symbol.attached same).trans attached⟩
  · intro p i s hs mem
    obtain ⟨s', hs', same⟩ := symbol hs
    have signature : s'.signature = s.signature := (congrArg Symbol.signature same :)
    refine ⟨s', hs', ?_⟩
    dsimp only
    rwa [signature]

theorem refers_counted (x : UnitIndex) (s : SymbolId) (q : Qualifier) :
    x.Refers (x.counted s q) where
  symbols i := by
    show ((x.symbols.update s _).get? i).map _ = _
    rw [Arena.get?_update]
    split
    · rw [Option.map_map]
      rfl
    · rfl
  rest := rfl
  unresolved := List.prefix_rfl
  diagnostics := List.prefix_rfl

theorem refers_countedField (x : UnitIndex) (s : SymbolId) (q : Qualifier) :
    x.Refers (x.countedField s q) := by
  unfold countedField
  split
  · exact (refers_counted _ _ _).trans (refers_counted _ _ _)
  · exact refers_counted _ _ _

end UnitIndex

namespace Walk

open Relation UnitIndex

/-! ### Strides -/

/-- One stride of a walk. -/
inductive Stride (w w' : Walk) : Prop
  | change (change : w.index.Change w.openDefinitions True True w'.index)
      (frame : w'.frame = w.frame)
  | turn (turn : Turn w w')
  | refer (refers : w.index.Refers w'.index) (frame : w'.frame = w.frame)

/-- Any number of strides, from one sound state to the next. -/
abbrev Strides : Walk → Walk → Prop := ReflTransGen fun w w' => Stride w w' ∧ Sound w'

section Strides

variable {env : Env} {n : NodeId} {w w' : Walk}

theorem Stride.extends (stride : Stride w w') : w.index.Extends w'.index := by
  cases stride with
  | change change => exact change.extends
  | turn turn => exact turn.extends
  | refer refers => exact refers.extends

/-- What is there stays, however far the walk goes. -/
theorem Strides.extends (h : Strides w w') : w.index.Extends w'.index := by
  induction h with
  | refl => exact .refl _
  | tail _ step ih => exact ih.trans step.1.extends

/-- What every stride preserves holds in the end. -/
theorem Strides.keep {P : Walk → Prop} (h : Strides w w') (hs : Sound w)
    (keep : ∀ v v', Sound v → Sound v' → Stride v v' → P v → P v') (start : P w) :
    Sound w' ∧ P w' := by
  induction h with
  | refl => exact ⟨hs, start⟩
  | tail _ step ih => exact ⟨step.2, keep _ _ ih.1 step.2 step.1 ih.2⟩

theorem Move.stride (h : Move env n w w') : Stride w w' := by
  have frame := h.frame
  cases h with
  | index change => exact .change (change.mono (fun _ => trivial) fun _ => trivial) frame
  | _ => exact .refer (.refl _) frame

theorem Runs.strides (h : Runs env n w w') (hs : Sound w) : Strides w w' := by
  induction h with
  | refl => exact .refl
  | tail before step ih =>
    have hs' := Runs.sound before hs
    rcases step with move | turn
    · exact ih.tail ⟨move.stride, move.sound hs'⟩
    · exact ih.tail ⟨.turn turn, turn.sound hs'⟩

theorem Refer.refers {ref : Reference} (h : Refer env n w ref w') : w.index.Refers w'.index := by
  cases h with
  | field => exact refers_countedField _ _ _
  | _ => exact refers_counted _ _ _

theorem Miss.refers {h : TableHint} (miss : Miss env n w h w') : w.index.Refers w'.index := by
  cases miss with
  | anywhere => exact ⟨fun _ => rfl, rfl, List.prefix_append _ _, List.prefix_rfl⟩
  | inTable => exact ⟨fun _ => rfl, rfl, List.prefix_append _ _, List.prefix_append _ _⟩

theorem Enters.strides (h : Enters env n w w') (hs : Sound w) : Strides w w' := by
  have hs' := h.sound hs
  cases h with
  | plain runs => exact Runs.strides runs hs
  | refer moves _ refer =>
    exact (Runs.strides moves.runs hs).tail ⟨.refer refer.refers refer.frame, hs'⟩
  | miss moves miss =>
    exact (Runs.strides moves.runs hs).tail ⟨.refer miss.refers miss.frame, hs'⟩

theorem Tells.stride {c : NodeId} (h : Tells env c w w') : Stride w w' := by
  refine .refer ?_ h.frame
  obtain ⟨qualifiers, hints, rfl⟩ := h.eq
  exact .refl _

theorem BindsStrongly.stride {r : NodeId} {b : SymbolId} (h : BindsStrongly env n w r b) :
    Stride w (w.boundStrongly r b) :=
  .change (h.change.mono False.elim False.elim) rfl

theorem Performs.strides {action : Action} (h : Performs env n w action w') (hs : Sound w) :
    Strides w w' := by
  cases h with
  | runs _ runs => exact Runs.strides runs hs
  | bind binds => exact .single ⟨binds.stride, binds.sound hs⟩
  | unused => exact .refl
  | use _ _ => exact .single ⟨.refer (refers_counted _ _ _) rfl, hs.counted _ _⟩

theorem Trail.strides {es : List (NodeId × Walk)} {rs : List NodeId} (h : Trail env w es rs w')
    (hs : Sound w) : Strides w w' := by
  induction h with
  | start => exact .refl
  | enter before entered ih =>
    have hs' := before.sound hs
    exact ih.trans (((ends_enter env _ hs').ok entered).enters.strides hs')
  | tell before tells ih => exact ih.tail ⟨tells.stride, tells.sound (before.sound hs)⟩
  | run before runs _ ih => exact ih.trans (Runs.strides runs (before.sound hs))
  | use q before _ ih =>
    exact ih.tail ⟨.refer (refers_counted _ _ _) rfl, (before.sound hs).counted _ q⟩
  | bind before _ _ binds ih =>
    exact ih.tail ⟨binds.stride, binds.sound (before.sound hs)⟩

/-- A node was entered in its state, somewhere on the way from `w` to `w'`. -/
structure EnteredAmid (env : Env) (e : NodeId × Walk) (w w' : Walk) : Prop where
  before : Strides w e.2
  after : ∃ plan v, enter env e.1 e.2 = .ok plan v ∧ Strides e.2 v ∧ Strides v w'

theorem EnteredAmid.trans {e : NodeId × Walk} {w'' : Walk} (h : EnteredAmid env e w w')
    (further : Strides w' w'') : EnteredAmid env e w w'' := by
  obtain ⟨plan, v, henter, entering, after⟩ := h.after
  exact ⟨h.before, plan, v, henter, entering, after.trans further⟩

/-- The nodes on a trail were entered on the way. -/
theorem Trail.enteredAmid {es : List (NodeId × Walk)} {rs : List NodeId}
    (h : Trail env w es rs w') (hs : Sound w) : ∀ e ∈ es, EnteredAmid env e w w' := by
  induction h with
  | start => simp
  | enter before entered ih =>
    have hs' := before.sound hs
    have enters := ((ends_enter env _ hs').ok entered).enters.strides hs'
    intro e he
    rcases List.mem_append.1 he with he | he
    · exact (ih e he).trans enters
    · cases List.mem_singleton.1 he
      exact ⟨before.strides hs, _, _, entered, enters, .refl⟩
  | tell before tells ih =>
    exact fun e he => (ih e he).trans (.single ⟨tells.stride, tells.sound (before.sound hs)⟩)
  | run before runs _ ih =>
    exact fun e he => (ih e he).trans (Runs.strides runs (before.sound hs))
  | use q before _ ih =>
    exact fun e he =>
      (ih e he).trans (.single ⟨.refer (refers_counted _ _ _) rfl, (before.sound hs).counted _ q⟩)
  | bind before _ _ binds ih =>
    exact fun e he =>
      (ih e he).trans (.single ⟨binds.stride, binds.sound (before.sound hs)⟩)

/-- All that is done on a walk over a unit. -/
theorem strides_visitUnit {notes : Annotations} (hok : visitUnit env (start env notes) = .ok () w) :
    Strides (start env notes) w := by
  obtain ⟨rs, trail, -⟩ := visitUnit_trail hok
  exact trail.strides (sound_start env notes)

end Strides

end Walk

end AblResolve
