import AblResolve.Proofs.ParallelVisit
import AblResolve.Proofs.Qualifiers
/-!
Nodes that are read by default. Whether these nodes are listed is an option, and the list is all
that the options change: walks with different options run in parallel, and nothing ever looks at the
list. What is on it is found by comparing a walk with the one that keeps no list: entering a node is
the same in both once the node has been noted, if it has to be.
-/
namespace AblResolve

/-- The index without the list of nodes that are read by default. -/
def UnitIndex.withoutDefaults (x : UnitIndex) : UnitIndex := { x with defaulted := [] }

/-- The same walk without such a list. -/
def Env.unlisted (env : Env) : Env := { env with options := {} }

namespace Likeness

variable {R : List NodeId → List NodeId → Prop}

theorem literal_anyDefaults : (anyDefaults R).Literal := fun _ => rfl

end Likeness

open Likeness

/-- Indexes that are alike but for the list. -/
theorem UnitIndex.Alike.withoutDefaults {R : List NodeId → List NodeId → Prop} {x y : UnitIndex}
    (h : x.Alike (anyDefaults R) y) : x.withoutDefaults = y.withoutDefaults := by
  have literal : (anyDefaults R).Literal := literal_anyDefaults
  have unresolved := h.unresolved
  have found := h.diagnostics
  rw [literal.unresolved, literal.unresolved] at unresolved
  rw [literal.diagnostics, literal.diagnostics] at found
  have scopes := Arena.eq_of_map_eq h.scopes literal.scope
  have symbols := Arena.eq_of_map_eq h.symbols fun s => literal.symbol s rfl
  have tables := Arena.eq_of_map_eq h.tables literal.table
  have fields := Arena.eq_of_map_eq h.fields literal.field
  have indexes := Arena.eq_of_map_eq h.indexes literal.tableIndex
  have diagnostics : x.diagnostics = y.diagnostics := congrArg Diagnostics.mk found
  simp only [UnitIndex.withoutDefaults, scopes, symbols, tables, fields, indexes, h.blocks,
    h.bufferScopes, h.schemaTables, unresolved, diagnostics]

namespace Walk

open UnitIndex ParseTree

variable {env : Env} {n : NodeId} {w₀ w w' : Walk} {R : List NodeId → List NodeId → Prop}

/-! ### Walks with different options -/

/-- Walks that differ in their options run in parallel, as long as the lists stay comparable. -/
theorem alike_options (env : Env) (o o' : Options)
    (defaults : ∀ {ns ns'}, R ns ns' → ∀ n, R (o.noting n ns) (o'.noting n ns')) :
    Env.Alike (anyDefaults R) { env with options := o } { env with options := o' } where
  catalog := rfl
  types := rfl
  defaults := defaults
  below _ _ _ := trivial
  children _ := rfl
  kind _ := rfl
  text _ := rfl
  location _ := rfl
  fileName _ := rfl
  definesInline _ := rfl
  parentKind _ := rfl
  handleMode _ _ _ := rfl

/-- A state is like itself. -/
theorem Alike.refl (h : R w.index.defaulted w.index.defaulted) : w.Alike (anyDefaults R) w :=
  ⟨⟨rfl, rfl, rfl, rfl, rfl, rfl, rfl, rfl, rfl, h, rfl, fun _ _ _ _ _ => trivial⟩, fun _ => rfl,
    rfl, rfl, rfl, rfl, rfl, rfl, rfl, fun _ _ => ⟨fun _ _ => trivial, fun _ _ => trivial⟩, rfl,
    rfl, rfl⟩

/-- What runs in parallel with itself, whatever the list is, leaves the list as it is. -/
theorem defaulted_of_parallel {α : Type} {V : α → α → Prop} {m : WalkM α} {a : α}
    (h : Parallel (anyDefaults fun x _ => x = w.index.defaulted) V m m) (hok : m w = .ok a w') :
    w'.index.defaulted = w.index.defaulted := by
  have agrees := h w w (.refl rfl)
  rw [hok] at agrees
  cases agrees with
  | ok _ state => exact state.index.defaulted

/-! ### Who is listed -/

/-- Without the option, no node is noted. -/
theorem alike_unlisted (env : Env) (ns : List NodeId) :
    Env.Alike (anyDefaults fun x _ => x = ns) env.unlisted env.unlisted :=
  alike_options env {} {} fun same _ => same

/-- The list on which node `n` has been noted, if it asks how it is used and has been told
nothing. -/
def defaultedAt (env : Env) (n : NodeId) (w : Walk) : List NodeId :=
  if (env.tree.kind n).consumesQualifier ∧ w.qualifiers.find? n = none then
    env.options.noting n w.index.defaulted
  else w.index.defaulted

/-- The state with another list. -/
def withDefaulted (w : Walk) (ns : List NodeId) : Walk :=
  { w with index := { w.index with defaulted := ns } }

/-- What a node is told; if it is not told anything, this is noted. -/
theorem takeQualifier_eq (asks : (env.tree.kind n).consumesQualifier) : takeQualifier env n w =
    .ok (w.qualifierAt n)
      { w.withDefaulted (w.defaultedAt env n) with qualifiers := w.qualifiers.erase n } := by
  unfold takeQualifier Walk.qualifierAt
  have read : (get : WalkM Walk) w = .ok w w := rfl
  rw [bind_of_ok read]
  dsimp only [SideTable.take]
  rw [bind_of_ok (m := modify _) rfl]
  cases hq : w.qualifiers.find? n with
  | some q =>
    have told : w.defaultedAt env n = w.index.defaulted := if_neg (by simp [hq])
    rw [told]
    rfl
  | none =>
    have untold : w.defaultedAt env n = env.options.noting n w.index.defaulted := if_pos ⟨asks, hq⟩
    rw [untold]
    unfold Options.noting
    cases env.options.recordDefaultedQualifiers <;> rfl

/-- What a node that asks is told. -/
theorem ends_takeQualifier_asks (asks : (env.tree.kind n).consumesQualifier)
    {E : Fault → Walk → Prop} {Q : Qualifier → Walk → Prop} :
    Ends (takeQualifier env n) w E Q ↔ Q (w.qualifierAt n)
      { w.withDefaulted (w.defaultedAt env n) with qualifiers := w.qualifiers.erase n } := by
  unfold Ends
  rw [takeQualifier_eq asks]

theorem takeQualifier_unlisted (asks : (env.tree.kind n).consumesQualifier) :
    takeQualifier env n w =
      takeQualifier env.unlisted n (w.withDefaulted (w.defaultedAt env n)) := by
  have listed : (w.withDefaulted (w.defaultedAt env n)).defaultedAt env.unlisted n =
      w.defaultedAt env n := ite_self _
  have asks' : (env.unlisted.tree.kind n).consumesQualifier := asks
  rw [takeQualifier_eq asks, takeQualifier_eq asks', listed]
  rfl

theorem memberNode?_unlisted (env : Env) (n : NodeId) (cs : List (env.tree.Child n)) :
    memberNode? env.unlisted n cs = memberNode? env n cs := by
  cases cs <;> rfl

/-- A node that asks how it is used does so first; what follows does not depend on the option. -/
theorem enter_asks (env : Env) (asks : (env.tree.kind n).consumesQualifier) :
    ∃ k, enter env n = takeQualifier env n >>= k ∧
      enter env.unlisted n = takeQualifier env.unlisted n >>= k := by
  have same : env.unlisted.tree = env.tree := rfl
  by_cases widget : env.tree.kind n = .widgetAttribute
  · have children : env.unlisted.tree.childList n = env.tree.childList n := rfl
    simp only [enter, same, widget]
    unfold enterWidgetAttribute
    refine ⟨_, rfl, ?_⟩
    rw [children]
    congr 1
    funext q
    cases env.tree.childList n with
    | nil => rfl
    | cons target rest =>
      dsimp only
      rw [memberNode?_unlisted]
      rfl
  · cases hkind : env.tree.kind n <;> rw [hkind] at asks widget <;> try cases asks
    all_goals simp only [enter, same, hkind]
    all_goals first | exact absurd rfl widget | exact ⟨_, rfl, rfl⟩

/-- Other nodes do not depend on it at all. -/
theorem enter_silent (env : Env) (silent : ¬ (env.tree.kind n).consumesQualifier) :
    enter env n = enter env.unlisted n := by
  have same : env.unlisted.tree = env.tree := rfl
  cases hkind : env.tree.kind n
  all_goals first | exact absurd (by rw [hkind]; rfl) silent | skip
  all_goals
    simp only [enter, same, hkind]
    rfl

/-- Entering a node lists it if it has to be. -/
theorem enter_noted {plan : Plan env.tree n} (hok : enter env n w = .ok plan w') :
    w'.index.defaulted = w.defaultedAt env n := by
  have kept : ∀ {v : Walk} {plan : Plan env.unlisted.tree n}, enter env.unlisted n v = .ok plan w' →
      w'.index.defaulted = v.index.defaulted :=
    defaulted_of_parallel (.enter (alike_unlisted env _) trivial)
  by_cases asks : (env.tree.kind n).consumesQualifier
  · obtain ⟨k, listed, unlisted⟩ := enter_asks env asks
    have entered : enter env.unlisted n (w.withDefaulted (w.defaultedAt env n)) = .ok plan w' := by
      rw [unlisted, ← bind_congr_state (takeQualifier_unlisted asks), ← listed, hok]
      rfl
    exact kept entered
  · rw [defaultedAt, if_neg fun h => asks h.1]
    exact kept (enter_silent env asks ▸ hok)

/-- Actions list nothing. -/
theorem perform_defaulted {a : Action} (hok : perform env a w = .ok () w') :
    w'.index.defaulted = w.index.defaulted := by
  have same : perform env a = perform env.unlisted a := by cases a <;> rfl
  rw [same] at hok
  refine defaulted_of_parallel (.perform (alike_unlisted env _) ?_) hok
  cases a <;> trivial

theorem Done.defaulted {as : List Action} (h : Done env n w as w') :
    w'.index.defaulted = w.index.defaulted := by
  induction h with
  | nil => rfl
  | cons _ ok _ _ _ ih => exact ih.trans (perform_defaulted ok)

/-- The nodes that have to be listed, in the order in which they are entered: those which ask how
they are used and have been told nothing. -/
def untold (env : Env) (es : List (NodeId × Walk)) : List NodeId :=
  if env.options.recordDefaultedQualifiers then
    (es.filter fun e => (env.tree.kind e.1).consumesQualifier ∧ e.2.qualifiers.find? e.1 = none).map
      Prod.fst
  else []

theorem untold_append (es es' : List (NodeId × Walk)) :
    untold env (es ++ es') = untold env es ++ untold env es' := by
  unfold untold
  split
  · rw [List.filter_append, List.map_append]
  · rfl

theorem defaultedAt_eq (env : Env) (n : NodeId) (w : Walk) :
    w.defaultedAt env n = w.index.defaulted ++ untold env [(n, w)] := by
  unfold defaultedAt untold Options.noting
  by_cases h : (env.tree.kind n).consumesQualifier ∧ w.qualifiers.find? n = none
  · rw [if_pos h, List.filter_cons_of_pos (by simpa only [decide_eq_true_eq] using h)]
    cases env.options.recordDefaultedQualifiers <;> simp
  · rw [if_neg h, List.filter_cons_of_neg (by simpa only [decide_eq_true_eq] using h)]
    simp

/-- The visit of a node lists those entered below it. -/
def Lists (env : Env) (n : NodeId) (w w' : Walk) : Prop :=
  w'.index.defaulted = w.index.defaulted ++ untold env (entries env n w)

theorem Rounds.lists {steps : List (Step env.tree n)}
    (h : Rounds env n w₀ (Lists env) steps w w') :
    w'.index.defaulted = w.index.defaulted ++ untold env (stepsEntries env steps w) := by
  induction h with
  | nil w => simp [stepsEntries, collect, untold]
  | cons sound prepared tells before began visit visited child after once run others ih =>
    rw [ih, after.defaulted, child, before.defaulted]
    obtain ⟨qualifiers, hints, rfl⟩ := tells.eq
    rw [stepsEntries_of_ok run, Step.entries_of_done prepared before, untold_append,
      List.append_assoc]

theorem visit_lists (env : Env) (n : NodeId) {w w' : Walk} (hs : Sound w)
    (hok : visit env n w = .ok () w') : Lists env n w w' := by
  refine visit_rounds (P := Lists env) ?_ n hs hok
  intro n w plan v v' w' hs henter admitted rounds done visited
  rw [Lists, done.defaulted, rounds.lists, enter_noted henter, defaultedAt_eq, entries_of_ok henter,
    List.append_assoc, ← untold_append]
  rfl

theorem visitUnit_lists {notes : Annotations}
    (hok : visitUnit env (start env notes) = .ok () w) :
    w.index.defaulted = untold env (unitEntries env notes) :=
  (visitUnit_rounds (fun c _ _ _ hs hok => visit_lists env c hs hok) hok).lists

end Walk

namespace CompilationUnit

open Walk ParseTree

/-- On a unit on which nothing else was written, nodes that were told nothing are read. -/
theorem FromClean.mode_of_untold {u : CompilationUnit} {env : Env} {n : NodeId} {w : Walk}
    {q : Qualifier} (h : u.FromClean) (tree : env.tree = u.tree)
    (asks : (env.tree.kind n).consumesQualifier) (told : Told env n w)
    (untold : w.qualifiers.find? n = none) (hq : (u.notes.get n).qualifier = some q) :
    q = .ref := by
  have other : u.tree.kind n ≠ .identifier := by
    intro kind
    rw [tree, kind] at asks
    cases asks
  have unsaid : u.tree.mode? n = none := by
    rw [← tree, ← untold, told, if_pos rfl]
  rw [h.mode hq, modeHolder_of_ne other, ParseTree.mode, unsaid]
  rfl

variable (u : CompilationUnit) (catalog : Catalog) (types : TypeRegistry)

/-- Walks over a unit with different options come to the same but for the list. -/
theorem visitUnit_options (o o' : Options) :
    let env : Env := { tree := u.tree, catalog, types, options := o }
    let env' : Env := { tree := u.tree, catalog, types, options := o' }
    Agrees (anyDefaults fun _ _ => True) Eq (visitUnit env (start env u.notes))
      (visitUnit env' (start env' u.notes)) := by
  intro env env'
  have alike : env.Alike (anyDefaults fun _ _ => True) env' :=
    alike_options { tree := u.tree, catalog, types } o o' fun _ _ => trivial
  have visits : Parallel (anyDefaults fun _ _ => True) Eq (visitUnit env) (visitUnit env') :=
    .visits alike fun _ _ => trivial
  exact visits _ _ (alike_start rfl trivial fun _ => rfl)

/-- Whatever the options are, an analysis comes to the same but for the list. -/
theorem analyze_unlisted (o o' : Options) :
    let r := u.analyze catalog types o
    let r' := u.analyze catalog types o'
    r.1.map UnitIndex.withoutDefaults = r'.1.map UnitIndex.withoutDefaults ∧
      r.2.tree = r'.2.tree ∧ ∀ n, r.2.notes.get n = r'.2.notes.get n := by
  intro r r'
  have agrees := visitUnit_options u catalog types o o'
  have literal : (anyDefaults fun _ _ => True).Literal := literal_anyDefaults
  simp only [r, r', analyze_eq]
  dsimp only at agrees
  revert agrees
  generalize visitUnit _ (start _ u.notes) = v
  generalize visitUnit _ (start _ u.notes) = v'
  rintro (⟨-, state⟩ | ⟨fault, state⟩ | uncounted | uncounted)
  · exact ⟨congrArg Except.ok state.index.withoutDefaults, rfl, state.notes⟩
  · rw [literal.fault, literal.fault] at fault
    subst fault
    refine ⟨rfl, ?_⟩
    dsimp only
    split
    · exact ⟨rfl, fun _ => rfl⟩
    · exact ⟨rfl, state.notes⟩
  · cases uncounted
  · cases uncounted

/-- Options only observe: whatever they are, the outcome is the same, and so is what is written on
the tree, and the index but for the list of nodes that are read by default. This list is empty
unless it has been asked for. If so, it has the nodes that asked how they are used and had not been
told when they were entered, in this order and none twice; if any of them is given a qualifier, it
is read, unless something else was written on the tree before. -/
theorem analyze_options (o o' : Options) :
    let r := u.analyze catalog types o
    let r' := u.analyze catalog types o'
    r.1.map UnitIndex.withoutDefaults = r'.1.map UnitIndex.withoutDefaults ∧
      r.2.tree = r'.2.tree ∧ (∀ n, r.2.notes.get n = r'.2.notes.get n) ∧
      ∀ x, r.1 = .ok x →
        let env : Env := { tree := u.tree, catalog, types, options := o }
        (o.recordDefaultedQualifiers = false → x.defaulted = []) ∧
        (o.recordDefaultedQualifiers = true →
          x.defaulted = ((unitEntries env u.notes).filter fun e =>
            (u.tree.kind e.1).consumesQualifier ∧ e.2.qualifiers.find? e.1 = none).map Prod.fst ∧
          x.defaulted.Nodup ∧
          (u.FromClean → ∀ n ∈ x.defaulted, ∀ q,
            (r.2.notes.get n).qualifier = some q → q = .ref)) := by
  intro r r'
  obtain ⟨outcome, tree, notes⟩ := analyze_unlisted u catalog types o o'
  refine ⟨outcome, tree, notes, fun x hx => ?_⟩
  intro env
  obtain ⟨w, hvisit, rfl, hu⟩ := analyze_ok catalog types o (Prod.ext hx rfl : r = (.ok x, r.2))
  have listed := visitUnit_lists hvisit
  have analyzed : ∀ clean : u.FromClean, r.2.FromClean := fun clean =>
    .analyzed clean (Prod.ext hx rfl : r = (.ok w.index, r.2))
  refine ⟨fun off => ?_, fun on => ?_⟩
  · rw [listed, untold, if_neg (by simp [off])]
  rw [untold, if_pos on] at listed
  refine ⟨listed, ?_, fun clean n hn q hq => ?_⟩
  · rw [listed]
    exact (unitEntries_nodup _ _).sublist (List.filter_sublist.map _)
  · rw [listed] at hn
    obtain ⟨⟨n, v⟩, he, rfl⟩ := List.mem_map.1 hn
    obtain ⟨he, asked⟩ := List.mem_filter.1 he
    obtain ⟨asks, untold⟩ := of_decide_eq_true asked
    have told := ((visitUnit_modal hvisit).2 _ he).1
    have tree : env.tree = r.2.tree := by rw [hu]
    exact (analyzed clean).mode_of_untold tree asks told untold hq

/-- A message that shows a variable. -/
def messageSample : ParseTree := .ofRows [
  (0, .defineVariable, ""), (1, .identifier, "x"), (0, .messageStatement, ""), (3, .expression, ""),
  (4, .field, "x")]

/-- The statement does not say how the expression in a message is used, so it is read by default;
that the variable in it is read, too, has been said by the expression. -/
theorem analyze_options_message :
    let quiet : Options := {}
    let listing : Options := { recordDefaultedQualifiers := true }
    let r := (ofTree messageSample).analyze {} {} quiet
    let r' := (ofTree messageSample).analyze {} {} listing
    r.1.map UnitIndex.withoutDefaults = r'.1.map UnitIndex.withoutDefaults ∧
      (∀ n, r.2.notes.get n = r'.2.notes.get n) ∧
      (r.2.notes.get ⟨4⟩).qualifier = some .ref ∧ (r.2.notes.get ⟨5⟩).qualifier = some .ref ∧
      ∃ x y, r.1 = .ok x ∧ x.defaulted = [] ∧ r'.1 = .ok y ∧ y.defaulted = [⟨4⟩] ∧
        y.defaulted.Nodup ∧
        ∀ n ∈ y.defaulted, ∀ q, (r'.2.notes.get n).qualifier = some q → q = .ref := by
  intro quiet listing r r'
  obtain ⟨x, hx⟩ := exists_analyze_ok (u := ofTree messageSample) {} {} quiet (by decide +kernel)
  obtain ⟨y, hy, four⟩ := exists_analyze_ok_and (u := ofTree messageSample) {} {} listing
    (P := fun y => y.defaulted = [⟨4⟩]) (by decide +kernel)
  obtain ⟨index, -, notes, off⟩ := analyze_options (ofTree messageSample) {} {} quiet listing
  obtain ⟨-, -, -, on⟩ := analyze_options (ofTree messageSample) {} {} listing quiet
  obtain ⟨-, nodup, read⟩ := (on y (congrArg Prod.fst hy)).2 rfl
  exact ⟨index, notes, by decide +kernel, by decide +kernel, x, y, congrArg Prod.fst hx,
    (off x (congrArg Prod.fst hx)).1 rfl, congrArg Prod.fst hy, four, nodup,
    read (.clean messageSample)⟩

end CompilationUnit

end AblResolve
