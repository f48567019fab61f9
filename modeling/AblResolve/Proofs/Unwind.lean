import AblResolve.Proofs.Perform
/-!
What is closed when a record names no table. Every definition that is open around the record is
closed on the way up, but for the variables of CATCH blocks, which stay open; a definition around
such a variable is then no longer the innermost one and cannot be closed.
-/
namespace AblResolve.Walk

open UnitIndex

/-- Definitions of which none is left open inside of one that has to be closed. The innermost
comes first. -/
def Orderly (t : ParseTree) (x : UnitIndex) (definitions : List SymbolId) : Prop :=
  definitions.Pairwise fun inner outer => caught t x inner = true → caught t x outer = true

section Orderly

variable {t : ParseTree} {x y : UnitIndex} {D P : List SymbolId}

theorem orderly_append : Orderly t x (D ++ P) ↔ Orderly t x D ∧ Orderly t x P ∧
    ∀ d ∈ D, ∀ p ∈ P, caught t x d = true → caught t x p = true :=
  List.pairwise_append

/-- What matters of the definitions inside of others is which of them stay open. -/
theorem orderly_filter_append (hD : Orderly t x D) :
    Orderly t x (D ++ P) ↔
      Orderly t x P ∧ (D.filter (caught t x) = [] ∨ ∀ p ∈ P, caught t x p) := by
  rw [orderly_append]
  constructor
  · rintro ⟨-, hP, hcross⟩
    refine ⟨hP, ?_⟩
    cases hfilter : D.filter (caught t x) with
    | nil => exact .inl rfl
    | cons d rest =>
      have hd : d ∈ D.filter (caught t x) := by rw [hfilter]; exact List.mem_cons_self
      obtain ⟨hmem, hcaught⟩ := List.mem_filter.1 hd
      exact .inr fun p hp => hcross d hmem p hp hcaught
  · rintro ⟨hP, hnone | hall⟩
    · refine ⟨hD, hP, fun d hd p _ hcaught => ?_⟩
      have hmem : d ∈ D.filter (caught t x) := List.mem_filter.2 ⟨hd, hcaught⟩
      rw [hnone] at hmem
      simp at hmem
    · exact ⟨hD, hP, fun _ _ p hp _ => hall p hp⟩

end Orderly

/-! ### Closing what one node has opened -/

variable {env : Env} {n : NodeId} {w : Walk} {F₀ F : Frame}

/-- What is left when something has been closed: a sound state, and nothing is lost. -/
structure Unwound (w w' : Walk) : Prop where
  sound : Sound w'
  ext : w.index.Extends w'.index

theorem Runs.unwound {w' : Walk} (h : Runs env n w w') (hs : Sound w) : Unwound w w' :=
  ⟨h.sound hs, h.extends⟩

theorem Standing.withDefinitions {x : UnitIndex} {D : List SymbolId} (h : Standing x F)
    (hD : ∀ d ∈ D, d.val < x.symbols.size) : Standing x { F with definitions := D } :=
  { h with definitions := hD }

theorem ends_endDefinition_other {E : Fault → Walk → Prop} {Q : PUnit → Walk → Prop}
    {s d : SymbolId} {rest : List SymbolId} (h : w.openDefinitions = d :: rest) (hne : d ≠ s) :
    Ends (endDefinition s) w E Q ↔ E (.breach (.definitionOrder (some d) s)) w := by
  unfold endDefinition
  rw [ends_bind, ends_get, h]
  dsimp only
  rw [if_neg hne, ends_breach]

theorem ends_performAll_one {E : Fault → Walk → Prop} {Q : PUnit → Walk → Prop}
    {action : Action} :
    Ends (performAll env [action]) w E Q ↔ Ends (perform env action) w E Q := by
  unfold performAll
  rw [ends_forM_cons]
  rfl

/-- A definition that cannot be closed, since the variable of a CATCH block stayed open. -/
def OutOfOrder (f : Fault) (_ : Walk) : Prop :=
  ∃ inner closing, f = .breach (.definitionOrder inner closing)

/-- Closing the definition of `d` while the variables in `D` are open inside of it. -/
theorem ends_endDefinition_inside {d : SymbolId} {D rest : List SymbolId} (hne : ∀ s ∈ D, s ≠ d)
    (hD : D ≠ []) (h : w.openDefinitions = D ++ rest) {Q : PUnit → Walk → Prop} :
    Ends (endDefinition d) w OutOfOrder Q := by
  cases D with
  | nil => exact absurd rfl hD
  | cons s D =>
    rw [ends_endDefinition_other h (hne s List.mem_cons_self)]
    exact ⟨_, _, rfl⟩

/-- What a node has opened on top of `F₀` is closed, but for a variable of a CATCH block, or else
it cannot be closed because of the variables in `D`. -/
def Unwinds (env : Env) (F₀ F : Frame) (D : List SymbolId) (m : WalkM Unit) (w : Walk) : Prop :=
  ∃ P, F.definitions = P ++ F₀.definitions ∧ P.length ≤ 1 ∧
    Ends m w
      (fun f w' => OutOfOrder f w' ∧ D ≠ [] ∧ ∃ p ∈ P, caught env.tree w.index p = false)
      fun _ w' => (D = [] ∨ ∀ p ∈ P, caught env.tree w.index p = true) ∧ Unwound w w' ∧
        w'.frame = { F₀ with
          definitions := D ++ P.filter (caught env.tree w.index) ++ F₀.definitions }

section Unwinds

variable {D : List SymbolId} {m : WalkM Unit}

/-- Without a definition of its own, the node is closed whatever stayed open. -/
theorem Unwinds.free (hsame : F.definitions = F₀.definitions)
    (h : Ends m w Never fun _ w' => Unwound w w' ∧
      w'.frame = { F₀ with definitions := D ++ F₀.definitions }) :
    Unwinds env F₀ F D m w := by
  refine ⟨[], hsame, by simp, h.imp ?_⟩
  rintro _ w' ⟨unwound, hframe⟩
  exact ⟨.inr (by simp), unwound, by simpa using hframe⟩

theorem Unwinds.own {d : SymbolId} (hown : F.definitions = d :: F₀.definitions)
    (closes : caught env.tree w.index d = false)
    (closed : D = [] → Ends m w Never fun _ w' => Unwound w w' ∧ w'.frame = F₀)
    (stuck : D ≠ [] → Ends m w OutOfOrder fun _ _ => False) :
    Unwinds env F₀ F D m w := by
  refine ⟨[d], hown, by simp, ?_⟩
  by_cases hD : D = []
  · refine (closed hD).imp ?_
    rintro _ w' ⟨unwound, hframe⟩
    exact ⟨.inl hD, unwound, by simpa [hD, closes] using hframe⟩
  · refine (stuck hD).mono ?_ fun _ _ => False.elim
    intro f w' h
    exact ⟨h, hD, d, List.mem_singleton_self d, closes⟩

end Unwinds

theorem ends_closeEvent {outer : Option SymbolId} {E : Fault → Walk → Prop}
    {Q : PUnit → Walk → Prop} {actions : List Action} :
    Ends (performAll env (.closeEvent outer :: actions)) w E Q ↔
      Ends (performAll env actions) { w with openEvent := outer } E Q := by
  unfold performAll
  rw [ends_forM_cons]
  rfl

theorem ne_of_caught {t : ParseTree} {x : UnitIndex} {D : List SymbolId} {d : SymbolId}
    (hD : ∀ s ∈ D, caught t x s = true) (closes : caught t x d = false) : ∀ s ∈ D, s ≠ d := by
  rintro s hs rfl
  simp [hD s hs] at closes

/-- Closing that goes on as in a visit that succeeds. -/
theorem Ends.unwound {m : WalkM Unit}
    (h : Ends m w Never fun _ w' => Runs env n w w' ∧ w'.frame = F) (hs : Sound w) :
    Ends m w Never fun _ w' => Unwound w w' ∧ w'.frame = F := by
  refine h.imp ?_
  rintro _ w' ⟨runs, hframe⟩
  exact ⟨runs.unwound hs, hframe⟩

/-- The signature of an event is closed together with its definition. -/
theorem ends_undoEvent (n : NodeId) {d : SymbolId} (hs : Sound w)
    (standing : Standing w.index F₀) (plain : w.index.IsPlain d)
    (hframe : w.frame = { F₀ with definitions := d :: F₀.definitions, event := some d }) :
    Ends (performAll env [.closeEvent F₀.event, .endDefinition d]) w Never
      fun _ w' => Unwound w w' ∧ w'.frame = F₀ := by
  have reopened : Standing w.index { w.frame with event := F₀.event } :=
    { hs.standing with event := standing.event }
  have runs : Runs env n w { w with openEvent := F₀.event } := runs_stacks env n rfl reopened
  have hevent : Walk.frame { w with openEvent := F₀.event } =
      { F₀ with definitions := d :: F₀.definitions } := by
    show { w.frame with event := F₀.event } = _
    rw [hframe]
  rw [ends_closeEvent, ends_performAll_one]
  refine (ends_perform_endDefinition env n (by exact plain) hevent).imp ?_
  rintro _ w' ⟨runs', hframe'⟩
  exact ⟨Runs.unwound (runs.trans runs') hs, hframe'⟩

/-- A table that is given up goes together with the definition of its buffer. -/
theorem ends_undoTable {d : SymbolId} {id : TableId} (hs : Sound w) (closed : F₀.table = none)
    (hframe : w.frame =
      { F₀ with definitions := d :: F₀.definitions, table := some (id, d) }) :
    Ends (performAll env [.abandonTable d]) w Never fun _ w' => Unwound w w' ∧ w'.frame = F₀ := by
  refine ends_performAll_one.2 ((ends_perform_abandonTable env hs closed hframe).imp ?_)
  rintro _ w' ⟨sound, hindex, hframe'⟩
  exact ⟨⟨sound, hindex ▸ .refl _⟩, hframe'⟩

theorem ends_undoTable_inside {d : SymbolId} {D : List SymbolId} {id : TableId}
    (hne : ∀ s ∈ D, s ≠ d) (hD : D ≠ []) (table : w.frame.table = some (id, d))
    (h : w.openDefinitions = D ++ d :: F₀.definitions) :
    Ends (performAll env [.abandonTable d]) w OutOfOrder fun _ _ => False := by
  obtain ⟨t, ht, -⟩ := exists_tableDefinition table
  rw [ends_performAll_one]
  unfold perform
  rw [ends_bind, ends_takeOpenTable ht]
  exact ends_endDefinition_inside hne hD (by exact h)

/-- What has been opened around a child is closed when the visit of the child fails. The cases are
those of what can be open. -/
theorem Opened.unwinds (n : NodeId) {x : UnitIndex} {undo : List Action} {D : List SymbolId}
    (opened : Opened env.tree x F₀ F undo) (ext : x.Extends w.index) (hs : Sound w)
    (standing : Standing w.index F₀) (hD : ∀ d ∈ D, caught env.tree w.index d = true)
    (hframe : w.frame = { F with definitions := D ++ F.definitions }) :
    Unwinds env F₀ F D (performAll env undo) w := by
  have hlt : ∀ d ∈ D ++ F.definitions, d.val < w.index.symbols.size := by
    have := hs.standing.definitions
    rw [hframe] at this
    exact this
  have standing' : Standing w.index { F₀ with definitions := D ++ F.definitions } :=
    standing.withDefinitions hlt
  have hdefinitions : w.openDefinitions = D ++ F.definitions := congrArg Frame.definitions hframe
  have still : ∀ {d : SymbolId} {b : Bool}, caught env.tree x d = b → d.val < x.symbols.size →
      caught env.tree w.index d = b := fun hd hlt => (caught_extends ext hlt).trans hd
  cases opened with
  | nothing => exact .free rfl ⟨⟨hs, .refl _⟩, hframe⟩
  | block control =>
    have leaves := ends_perform_leaveBlock env n (control.extends ext) standing' hframe
    exact .free rfl (ends_performAll_one.2 (leaves.unwound hs))
  | scope around =>
    have leaves := ends_perform_leaveScope env n (around.extends ext) standing' hframe
    exact .free rfl (ends_performAll_one.2 (leaves.unwound hs))
  | definition plain closes =>
    have closes := still closes plain.1
    refine .own rfl closes (fun none => ends_performAll_one.2 ?_)
      fun some => ends_performAll_one.2 ?_
    · subst none
      exact (ends_perform_endDefinition env n (plain.extends ext) hframe).unwound hs
    · exact ends_endDefinition_inside (ne_of_caught hD closes) some hdefinitions
  | event plain closes =>
    have closes := still closes plain.1
    refine .own rfl closes (fun none => ?_) fun some => ?_
    · subst none
      exact ends_undoEvent n hs standing (plain.extends ext) hframe
    · rw [ends_closeEvent, ends_performAll_one]
      exact ends_endDefinition_inside (ne_of_caught hD closes) some (by exact hdefinitions)
  | table t plain closes closed =>
    have closes := still closes plain.1
    refine .own rfl closes (fun none => ?_) fun some => ?_
    · subst none
      exact ends_undoTable hs closed hframe
    · exact ends_undoTable_inside (ne_of_caught hD closes) some (congrArg Frame.table hframe)
        hdefinitions
  | field reaches table =>
    have reaches := ext.asFieldBuffer? reaches
    have closes := not_caught_of_asFieldBuffer? (t := env.tree) reaches
    refine .own rfl closes (fun none => ends_performAll_one.2 ?_)
      fun some => ends_performAll_one.2 ?_
    · subst none
      exact (ends_perform_joinField env n hs reaches table hframe).unwound hs
    · unfold perform joinField
      rw [ends_bind]
      exact (ends_endDefinition_inside (ne_of_caught hD closes) some hdefinitions).mono
        (fun _ _ => id) fun _ _ => False.elim
  | @«catch» _ _ d around found kept =>
    have kept := still kept found
    have leaves := ends_perform_leaveScope env n (around.extends ext)
      (standing.withDefinitions hlt) hframe
    refine ⟨[d], rfl, by simp, ends_performAll_one.2 ((leaves.unwound hs).imp ?_)⟩
    rintro _ w' ⟨unwound, hframe'⟩
    exact ⟨.inr (by simpa using kept), unwound, by simpa [kept] using hframe'⟩

end AblResolve.Walk
