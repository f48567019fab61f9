import AblResolve.Proofs.Course
import AblResolve.Proofs.ParallelTables
import AblResolve.Walk.Visit
/-!
Plans over two trees that share nodes. Plans that are alike visit the same children in the same
order and do the same before, between and after the visits. Only how often a symbol is used may
differ, where that is not compared.
-/
namespace AblResolve.Walk

variable {L : Likeness} {env env' : Env} {t t' : ParseTree} {n : NodeId}

/-- The same actions, which read words at shared nodes. -/
def SameActions (L : Likeness) (as as' : List Action) : Prop :=
  as = as' ∧ ∀ a ∈ as, a.Shared L

/-- The same actions, or uses that are not compared. -/
def SameButUses (L : Likeness) (as as' : List Action) : Prop :=
  SameActions L as as' ∨ L.counts = false ∧ (∀ a ∈ as, a.isUse) ∧ ∀ a ∈ as', a.isUse

theorem SameActions.refl {as : List Action} (h : ∀ a ∈ as, a.Shared L) : SameActions L as as :=
  ⟨rfl, h⟩

theorem SameActions.nil : SameActions L [] [] := .refl (by simp)

theorem SameActions.append {as as' bs bs' : List Action} (h : SameActions L as as')
    (k : SameActions L bs bs') : SameActions L (as ++ bs) (as' ++ bs') := by
  refine ⟨by rw [h.1, k.1], fun a ha => ?_⟩
  rcases List.mem_append.1 ha with ha | ha
  · exact h.2 a ha
  · exact k.2 a ha

/-- The visits of the same child, told the same. -/
structure Step.Alike (L : Likeness) (s : Step t n) (s' : Step t' n) : Prop where
  child : s.child.val = s'.child.val
  qualifier : s.qualifier = s'.qualifier
  hint : s.hint = s'.hint
  before : SameActions L s.before s'.before
  after : SameButUses L s.after s'.after
  onFailure : SameActions L s.onFailure s'.onFailure

/-- The same visits in the same order, and the same in the end. -/
structure Plan.Alike (L : Likeness) (p : Plan t n) (p' : Plan t' n) : Prop where
  steps : List.Forall₂ (Step.Alike L) p.steps p'.steps
  leave : SameActions L p.leave p'.leave

/-- A child that is told a qualifier and nothing else. -/
theorem Step.Alike.told {c : t.Child n} {c' : t'.Child n} (h : c.val = c'.val)
    (q : Option Qualifier) :
    Step.Alike L { child := c, qualifier := q } { child := c', qualifier := q } :=
  ⟨h, rfl, rfl, .nil, .inl .nil, .nil⟩

theorem Step.Alike.plain {c : t.Child n} {c' : t'.Child n} (h : c.val = c'.val) :
    Step.Alike L (.plain c) (.plain c') := .told h none

theorem Step.Alike.guard {s : Step t n} {s' : Step t' n} (h : s.Alike L s') {as : List Action}
    (ha : ∀ a ∈ as, a.Shared L) : (s.guard as).Alike L (s'.guard as) :=
  { h with onFailure := h.onFailure.append (.refl ha) }

namespace Plan.Alike

theorem done : Plan.Alike L (.done : Plan t n) (.done : Plan t' n) := ⟨.nil, .nil⟩

theorem around {steps : List (Step t n)} {steps' : List (Step t' n)}
    (h : List.Forall₂ (Step.Alike L) steps steps') {onFailure leave : List Action}
    (hf : ∀ a ∈ onFailure, a.Shared L) (hl : ∀ a ∈ leave, a.Shared L) :
    Plan.Alike L (.around steps onFailure leave) (.around steps' onFailure leave) := by
  refine ⟨?_, .refl hl⟩
  simp only [Plan.around, List.forall₂_map_left_iff, List.forall₂_map_right_iff]
  exact h.imp fun _ _ hs => hs.guard hf

end Plan.Alike

/-! ### Plans over all children -/

section Children

variable (h : env.Alike L env') (hn : L.nodes n)
include h hn

/-- Shared nodes have the same children. -/
theorem childList_alike : List.Forall₂ (fun c c' => c.val = c'.val) (env.tree.childList n)
    (env'.tree.childList n) := by
  have same : (env.tree.childList n).map Subtype.val = (env'.tree.childList n).map Subtype.val := by
    rw [ParseTree.childList, List.attach_map_subtype_val, ParseTree.childList,
      List.attach_map_subtype_val, h.children hn]
  rwa [← List.forall₂_eq_eq_eq, List.forall₂_map_left_iff, List.forall₂_map_right_iff] at same

theorem kind_child {c : env.tree.Child n} {c' : env'.tree.Child n} (hc : c.val = c'.val) :
    env.tree.kind c.val = env'.tree.kind c'.val := by
  rw [h.kind (h.below hn c.val c.property), hc]

/-- One step for each child. -/
theorem steps_alike {f : env.tree.Child n → Step env.tree n}
    {f' : env'.tree.Child n → Step env'.tree n}
    (hf : ∀ c c', c.val = c'.val → (f c).Alike L (f' c')) :
    List.Forall₂ (Step.Alike L) ((env.tree.childList n).map f)
      ((env'.tree.childList n).map f') := by
  rw [List.forall₂_map_left_iff, List.forall₂_map_right_iff]
  exact (childList_alike h hn).imp hf

theorem plainSteps_alike :
    List.Forall₂ (Step.Alike L) (plainSteps env.tree n) (plainSteps env'.tree n) :=
  steps_alike h hn fun _ _ hc => .plain hc

theorem qualifiedSteps_alike (q : Qualifier) :
    List.Forall₂ (Step.Alike L) (qualifiedSteps env.tree n q) (qualifiedSteps env'.tree n q) :=
  steps_alike h hn fun _ _ hc => .told hc _

theorem qualifyingSteps_alike (kind : NodeKind) (q : Qualifier) :
    List.Forall₂ (Step.Alike L) (qualifyingSteps env.tree n kind q)
      (qualifyingSteps env'.tree n kind q) := by
  refine steps_alike h hn fun c c' hc => ?_
  rw [kind_child h hn hc]
  exact .told hc _

theorem operandSteps_alike (first rest : Qualifier) :
    List.Forall₂ (Step.Alike L) (operandSteps env.tree n first rest)
      (operandSteps env'.tree n first rest) := by
  have go : ∀ {cs cs'}, List.Forall₂ (fun c c' => c.val = c'.val) cs cs' → ∀ q,
      List.Forall₂ (Step.Alike L) (operandSteps.go env.tree n rest q cs)
        (operandSteps.go env'.tree n rest q cs') := by
    intro cs cs' hcs
    induction hcs with
    | nil => exact fun _ => .nil
    | cons hc _ ih =>
      intro q
      rw [operandSteps.go, operandSteps.go, kind_child h hn hc]
      split
      · exact .cons (.told hc _) (ih rest)
      · exact .cons (.plain hc) (ih q)
  exact go (childList_alike h hn) first

theorem firstSteps_alike (kind : NodeKind) (q : Qualifier) :
    List.Forall₂ (Step.Alike L) (firstSteps env.tree n kind q) (firstSteps env'.tree n kind q) := by
  refine steps_alike h hn fun c c' hc => ?_
  rw [h.childOfKind? hn, hc]
  exact .told hc _

theorem onlySteps_alike (kind : NodeKind) (q : Qualifier) :
    List.Forall₂ (Step.Alike L) (onlySteps env.tree n kind q) (onlySteps env'.tree n kind q) := by
  have only : ∀ {cs : List (env.tree.Child n)} {cs' : List (env'.tree.Child n)},
      List.Forall₂ (fun c c' => c.val = c'.val) cs cs' → ∀ only : Option NodeId,
      List.Forall₂ (fun c c' => c.val = c'.val) (cs.filter fun c => only = some c.val)
        (cs'.filter fun c => only = some c.val) := by
    intro cs cs' hcs only
    induction hcs with
    | nil => exact .nil
    | cons hc _ ih =>
      rw [List.filter_cons, List.filter_cons, hc]
      split
      · exact .cons hc ih
      · exact ih
  unfold onlySteps
  rw [h.childOfKind? hn, List.forall₂_map_left_iff, List.forall₂_map_right_iff]
  exact (only (childList_alike h hn) _).imp fun _ _ hc => .told hc _

theorem Plan.Alike.plain : Plan.Alike L (.plain env.tree n) (.plain env'.tree n) :=
  ⟨plainSteps_alike h hn, .nil⟩

theorem Plan.Alike.qualified (q : Qualifier) :
    Plan.Alike L (.qualified env.tree n q) (.qualified env'.tree n q) :=
  ⟨qualifiedSteps_alike h hn q, .nil⟩

theorem Plan.Alike.qualifying (kind : NodeKind) (q : Qualifier) :
    Plan.Alike L (.qualifying env.tree n kind q) (.qualifying env'.tree n kind q) :=
  ⟨qualifyingSteps_alike h hn kind q, .nil⟩

theorem Plan.Alike.operands (first rest : Qualifier) :
    Plan.Alike L (.operands env.tree n first rest) (.operands env'.tree n first rest) :=
  ⟨operandSteps_alike h hn first rest, .nil⟩

end Children

/-! ### Carrying plans out -/

/-- Counting uses changes nothing that is compared, if references are not. -/
theorem ends_uses (env : Env) (w : Walk) (uncounted : L.counts = false) {as : List Action}
    (h : ∀ a ∈ as, a.isUse) :
    Ends (performAll env as) w (fun f _ => ∃ i size, f = .breach (.dangling .symbol i size))
      fun _ w' => ∃ symbols, w' = { w with index := { w.index with symbols } } ∧
        symbols.map L.symbol = w.index.symbols.map L.symbol := by
  have used : ∀ (s : Symbol) (q : Qualifier), L.symbol (s.noteReference q) = L.symbol s := by
    intro s q
    simp only [Likeness.symbol, Symbol.noteReference, uncounted, Bool.false_eq_true, if_false]
  refine ends_forM (fun a ha v hv => ?_) ⟨w.index.symbols, rfl, rfl⟩
  obtain ⟨symbols, rfl, same⟩ := hv
  cases a <;> try cases h _ ha
  case countUse field q =>
    rw [perform, countUse, ends_bind, ends_annotation]
    cases (w.notes.get field).symbol with
    | none => exact ⟨symbols, rfl, same⟩
    | some s =>
      dsimp only
      rw [noteReference, updateSymbol, ends_bind]
      by_cases hs : s.val < symbols.size
      · obtain ⟨v, hv⟩ := Option.isSome_iff_exists.1 (Arena.get?_isSome_iff.2 hs)
        rw [ends_symbolAt hv, ends_modifyIndex]
        refine ⟨_, rfl, ?_⟩
        have still : (symbols.update s (·.noteReference q)).map L.symbol =
            (symbols.update s id).map L.symbol :=
          Arena.map_update_congr rfl (fun v v' hv => (used v q).trans hv) s
        have unchanged : symbols.update s id = symbols := Arena.ext_get? fun i => by
          rw [Arena.get?_update]
          split <;> simp
        rw [still, unchanged, same]
      · rw [ends_symbolAt_none hs]
        exact ⟨_, _, rfl⟩

namespace Parallel

theorem performUses (h : env.Alike L env') {as as' : List Action} (same : SameButUses L as as') :
    Parallel L Eq (Walk.performAll env as) (Walk.performAll env' as') := by
  rcases same with ⟨rfl, shared⟩ | ⟨uncounted, uses, uses'⟩
  · exact .performAll h shared
  intro w w' hw
  -- the two sides count different uses; only a missing symbol could tell them apart
  have left := ends_uses env w uncounted uses
  have right := ends_uses env' w' uncounted uses'
  unfold Ends at left right
  cases hl : Walk.performAll env as w with
  | error f v =>
    rw [hl] at left
    obtain ⟨i, size, rfl⟩ := left
    exact .lostLeft uncounted
  | ok u v =>
    cases hr : Walk.performAll env' as' w' with
    | error f v' =>
      rw [hr] at right
      obtain ⟨i, size, rfl⟩ := right
      exact .lostRight uncounted
    | ok u' v' =>
      rw [hl] at left
      rw [hr] at right
      obtain ⟨symbols, rfl, same⟩ := left
      obtain ⟨symbols', rfl, same'⟩ := right
      refine .ok rfl { hw with index := { hw.index with symbols := ?_ } }
      rw [same, same', hw.index.symbols]

theorem qualify (h : env.Alike L env') {c : NodeId} (hc : L.nodes c) (q : Qualifier) :
    Parallel L Eq (qualify env c q) (qualify env' c q) := by
  unfold Walk.qualify
  rw [h.kind hc]
  exact .ite Iff.rfl (.modify fun _ _ hw => { hw with qualifiers := by rw [hw.qualifiers] })
    (.pure rfl)

theorem hint (c : NodeId) (table : TableHint) : Parallel L Eq (hint c table) (hint c table) :=
  .modify fun _ _ hw => { hw with hints := by rw [hw.hints] }

theorem prepare (h : env.Alike L env') (hn : L.nodes n) {s : Step env.tree n}
    {s' : Step env'.tree n} (hs : s.Alike L s') :
    Parallel L Eq (prepare env s) (prepare env' s') := by
  have shared : L.nodes s.child.val := h.below hn _ s.child.property
  unfold Walk.prepare
  rw [← hs.child, ← hs.qualifier, ← hs.hint]
  cases s.qualifier with
  | some q =>
    refine .seq (.qualify h shared q) fun _ => ?_
    cases s.hint with
    | some table => exact .hint _ table
    | none => exact .pure rfl
  | none =>
    cases s.hint with
    | some table => exact .hint _ table
    | none => exact .pure rfl

/-- After a record without a table, what is open is closed before the walk ends. -/
theorem unwinding {m m' close close' : WalkM PUnit} (h : Parallel L Eq m m')
    (hc : Parallel L Eq close close') :
    Parallel L Eq
      (tryCatch m fun fault => do
        if fault.isUnresolvedTable then close
        MonadExcept.throw fault)
      (tryCatch m' fun fault => do
        if fault.isUnresolvedTable then close'
        MonadExcept.throw fault) := by
  intro w w' hw
  have agrees := h w w' hw
  show Agrees L Eq (EStateM.tryCatch m _ w) (EStateM.tryCatch m' _ w')
  unfold EStateM.tryCatch
  revert agrees
  generalize m w = r
  generalize m' w' = r'
  rintro (⟨value, state⟩ | @⟨f, f', _, _, fault, state⟩ | uncounted | uncounted)
  · exact .ok value state
  · have same : f.isUnresolvedTable = f'.isUnresolvedTable := by
      cases f <;> cases f' <;> first | rfl | cases fault
    have unwound : Parallel L Eq
        (do if f.isUnresolvedTable then close
            MonadExcept.throw f : WalkM PUnit)
        (do if f'.isUnresolvedTable then close'
            MonadExcept.throw f' : WalkM PUnit) := by
      rw [same]
      exact .ite Iff.rfl (.seq hc fun _ => .throw fault) (.throw fault)
    exact unwound _ _ state
  · exact .lostLeft uncounted
  · exact .lostRight uncounted

theorem run (h : env.Alike L env') (hn : L.nodes n) {s : Step env.tree n} {s' : Step env'.tree n}
    (hs : s.Alike L s') {m m' : WalkM PUnit} (hm : Parallel L Eq m m') :
    Parallel L Eq (s.run env m) (s'.run env' m') := by
  refine .seq (.prepare h hn hs) fun _ => ?_
  obtain ⟨-, -, -, ⟨before, sharedBefore⟩, after, ⟨onFailure, sharedOnFailure⟩⟩ := hs
  rw [← before, ← onFailure]
  refine .seq (.performAll h sharedBefore) fun _ => ?_
  refine .seq (.unwinding hm (.performAll h sharedOnFailure)) fun _ => ?_
  exact .performUses h after

end Parallel

end AblResolve.Walk
