import AblResolve.Proofs.AccessModes
import AblResolve.Proofs.Keeping
import AblResolve.Proofs.Told
/-!
The qualifiers that a walk writes. When a node is entered it has been told what the rule for access
modes says of it, and nobody else has been told anything; so whatever qualifier is written on a node
is its mode. Names, catalogs and types have no part in it.
-/
namespace AblResolve.Walk

open UnitIndex ParseTree

variable {env : Env} {n c : NodeId} {w₀ w w' : Walk}

/-- Node `n` has been told what the rule says of it, and nobody else has been told anything. -/
def Told (env : Env) (n : NodeId) (w : Walk) : Prop :=
  ∀ m, w.qualifiers.find? m = if m = n then env.tree.mode? n else none

theorem Told.qualifierAt (h : Told env n w) : w.qualifierAt n = env.tree.mode n := by
  rw [Walk.qualifierAt, h, if_pos rfl]
  rfl

theorem Told.onlyTold (h : Told env n w) : OnlyTold env n w := by
  intro m hm
  rw [Untold, h]
  split
  · rename_i hmn
    exact mode?_of_not_consumes (hm hmn)
  · rfl

/-- The qualifiers on the nodes are those there were, or the modes of the nodes. -/
def ByMode (t : ParseTree) (o o' : Annotations) : Prop :=
  ∀ k, (o'.get k).qualifier = (o.get k).qualifier ∨
    (o'.get k).qualifier = some (t.mode (t.modeHolder k))

/-- Nodes on which it is written how they are used, whatever the names below them stand for. -/
def Marked (kind : NodeKind) : Prop :=
  kind = .expression ∨ kind = .formItem ∨ kind = .memoryManagementFunction

theorem Marked.ne_identifier {kind : NodeKind} (h : Marked kind) : kind ≠ .identifier := by
  rcases h with rfl | rfl | rfl <;> exact nofun

section ByMode

variable {t : ParseTree} {o o' o'' : Annotations}

theorem ByMode.of_eq (h : ∀ k, (o'.get k).qualifier = (o.get k).qualifier) : ByMode t o o' :=
  fun k => .inl (h k)

theorem ByMode.trans (h : ByMode t o o') (k : ByMode t o' o'') : ByMode t o o'' := by
  intro m
  rcases k m with hk | hk
  · rw [hk]
    exact h m
  · exact .inr hk

/-- A node that has its mode keeps it. -/
theorem ByMode.keep (h : ByMode t o o') (marked : Marked (t.kind n))
    (has : (o.get n).qualifier = some (t.mode n)) : (o'.get n).qualifier = some (t.mode n) := by
  rcases h n with hn | hn
  · exact hn.trans has
  · rw [hn, modeHolder_of_ne marked.ne_identifier]

theorem ByMode.update (k : NodeId) {f : Annotation → Annotation}
    (h : ∀ a, (f a).qualifier = some (t.mode (t.modeHolder k))) : ByMode t o (o.update k f) := by
  intro m
  rw [Annotations.get_update]
  split
  · rename_i hk
    exact .inr (hk ▸ h _)
  · exact .inl rfl

end ByMode

/-! ### What is done besides references -/

/-- What is done at a node says nothing about the use of any, unless it is an expression. -/
theorem Runs.qualifiers (h : Runs env n w w') (own : ¬ Marked (env.tree.kind n)) (k : NodeId) :
    (w'.notes.get k).qualifier = (w.notes.get k).qualifier := by
  by_cases hk : k = n
  · subst hk
    refine h.notes (P := fun a b => b.qualifier = a.qualifier) (fun _ => rfl)
      (fun _ _ _ hab hbc => hbc.trans hab) fun v a b _ mark => ?_
    cases mark with
    | define | place => rfl
    | qualify q kind => exact absurd kind own
  · rw [h.apart hk]

theorem Runs.find?_qualifiers (h : Runs env n w w') {m : NodeId} (hm : m ≠ n) :
    w'.qualifiers.find? m = w.qualifiers.find? m := by
  induction h with
  | refl => rfl
  | tail _ step ih =>
    rw [← ih]
    rcases step with move | turn
    · cases move with
      | takeQualifier => rw [SideTable.find?_erase, if_neg hm.symm]
      | _ => rfl
    · cases turn <;> rfl

theorem Performs.qualifiers {a : Action} (h : Performs env n w a w')
    (own : ¬ Marked (env.tree.kind n)) (k : NodeId) :
    (w'.notes.get k).qualifier = (w.notes.get k).qualifier := by
  cases h with
  | runs _ runs => exact runs.qualifiers own k
  | bind =>
    rw [boundStrongly, Annotations.get_update]
    split <;> rfl
  | unused | use => rfl

theorem Performs.find?_qualifiers {a : Action} (h : Performs env n w a w') {m : NodeId}
    (hm : m ≠ n) : w'.qualifiers.find? m = w.qualifiers.find? m := by
  cases h with
  | runs _ runs => exact runs.find?_qualifiers hm
  | bind | unused | use => rfl

theorem Performs.untold {a : Action} {m : NodeId} (h : Performs env n w a w')
    (untold : w.Untold m) : w'.Untold m :=
  (Performed.cons h (.nil _)).untold untold

section Done

variable {as : List Action}

theorem Done.qualifiers (h : Done env n w as w') (own : Marked (env.tree.kind n) → as = [])
    (k : NodeId) : (w'.notes.get k).qualifier = (w.notes.get k).qualifier := by
  induction h with
  | nil => rfl
  | cons _ _ performs _ _ ih =>
    have own : ¬ Marked (env.tree.kind n) := fun marked => nomatch own marked
    exact (ih fun marked => absurd marked own).trans (performs.qualifiers own k)

theorem Done.find?_qualifiers (h : Done env n w as w') {m : NodeId} (hm : m ≠ n) :
    w'.qualifiers.find? m = w.qualifiers.find? m := by
  induction h with
  | nil => rfl
  | cons _ _ performs _ _ ih => exact ih.trans (performs.find?_qualifiers hm)

theorem Done.untold {m : NodeId} (h : Done env n w as w') (untold : w.Untold m) : w'.Untold m := by
  induction h with
  | nil => exact untold
  | cons _ _ performs _ _ ih => exact ih (performs.untold untold)

end Done

/-! ### Entering a node -/

theorem idle_qualified {t : ParseTree} (q : Qualifier) :
    ∀ s ∈ qualifiedSteps t n q, s.before = [] ∧ s.after = [] := by
  intro s hs
  obtain ⟨c, -, rfl⟩ := List.mem_map.1 hs
  exact ⟨rfl, rfl⟩

/-- An expression writes how it is used, and its plan does nothing but visit its parts. -/
theorem enter_marked {plan : Plan env.tree n} (marked : Marked (env.tree.kind n))
    (hok : enter env n w = .ok plan w') :
    (∀ s ∈ plan.steps, s.before = [] ∧ s.after = []) ∧ plan.leave = [] ∧
      w'.notes = w.notes.update n fun a => { a with qualifier := some (w.qualifierAt n) } := by
  rcases marked with hkind | hkind | hkind <;> simp only [enter, hkind] at hok <;>
    obtain ⟨q, w₁, htake, hrest⟩ := bind_ok.1 hok <;>
    obtain ⟨rfl, qualifiers, defaulted, rfl⟩ := takeQualifier_ok htake <;> cases hrest
  · exact ⟨idle_qualified _, rfl, rfl⟩
  · exact ⟨idle_qualified _, rfl, rfl⟩
  · have bare : BareSteps (operandSteps env.tree n .updating .ref) :=
      bareSteps_operands (by decide) (by decide)
    exact ⟨fun s hs => ⟨(bare.bare s hs).before, (bare.bare s hs).after⟩, rfl, rfl⟩

theorem Refer.byMode {v : Walk} {ref : Reference} (h : Refer env n v ref w') (told : Told env n w)
    (expects : w.Expects n ref) : ByMode env.tree v.notes w'.notes := by
  have mode := told.qualifierAt
  cases h with
  | record bufferScope abbreviated kind =>
    refine .update n fun a => ?_
    rw [modeHolder_of_ne (by simp [kind])]
    exact congrArg some (expects.trans mode)
  | field store bufferScope unqualified abbreviated kind =>
    refine .update n fun a => ?_
    rw [modeHolder_of_ne (by simp [kind])]
    exact congrArg some (expects.1.trans mode)
  | widget =>
    refine .of_eq fun k => ?_
    rw [Annotations.get_update]
    split <;> rfl
  | member kind child identifier =>
    refine .update _ fun a => ?_
    rw [modeHolder_member child identifier]
    exact congrArg some (expects.trans mode)

theorem enter_byMode {plan : Plan env.tree n} (admitted : Admitted env n w plan w')
    (told : Told env n w) (hok : enter env n w = .ok plan w') :
    ByMode env.tree w.notes w'.notes := by
  by_cases marked : Marked (env.tree.kind n)
  · obtain ⟨-, -, notes⟩ := enter_marked marked hok
    rw [notes]
    refine .update n fun a => ?_
    rw [modeHolder_of_ne marked.ne_identifier, told.qualifierAt]
  · cases admitted.enters with
    | plain runs => exact .of_eq (runs.qualifiers marked)
    | refer moves expects refer =>
      exact (ByMode.of_eq (moves.runs.qualifiers marked)).trans (refer.byMode told expects)
    | miss moves miss =>
      rw [miss.notes]
      exact .of_eq (moves.runs.qualifiers marked)

/-! ### Visits -/

/-- The nodes in `es` were told their modes before they were entered, and in the end the
expressions among them have it written on them. -/
def Used (env : Env) (es : List (NodeId × Walk)) (w : Walk) : Prop :=
  ∀ e ∈ es, Told env e.1 e.2 ∧
    (Marked (env.tree.kind e.1) → (w.notes.get e.1).qualifier = some (env.tree.mode e.1))

theorem Used.later {es : List (NodeId × Walk)} (h : Used env es w)
    (byMode : ByMode env.tree w.notes w'.notes) : Used env es w' := by
  intro e he
  obtain ⟨told, has⟩ := h e he
  exact ⟨told, fun marked => byMode.keep marked (has marked)⟩

theorem Used.append {es es' : List (NodeId × Walk)} (h : Used env es w) (k : Used env es' w) :
    Used env (es ++ es') w :=
  fun e he => (List.mem_append.1 he).elim (h e) (k e)

/-- The visit of a node that has been told its mode writes modes. -/
def Modal (env : Env) (n : NodeId) (w w' : Walk) : Prop :=
  n ≠ root → Told env n w → NoneTold w' ∧ ByMode env.tree w.notes w'.notes ∧
    Used env (entries env n w) w'

/-- What a step leaves for its child. -/
theorem prepare_qualifiers {step : Step env.tree n} (hok : prepare env step w = .ok () w') :
    (step.qualifier = none → w'.qualifiers = w.qualifiers) ∧
      ∀ q, step.qualifier = some q → w'.qualifiers =
        if (env.tree.kind step.child.val).consumesQualifier then
          w.qualifiers.set step.child.val q else w.qualifiers := by
  have qualified : ∀ q v, qualify env step.child.val q w = .ok () v → v.qualifiers =
      if (env.tree.kind step.child.val).consumesQualifier then
        w.qualifiers.set step.child.val q else w.qualifiers := by
    intro q v hqualify
    unfold qualify at hqualify
    split at hqualify <;> rename_i asks <;> cases hqualify
    · rw [if_pos asks]
    · rw [if_neg asks]
  unfold prepare at hok
  cases hq : step.qualifier with
  | none =>
    refine ⟨fun _ => ?_, nofun⟩
    cases hh : step.hint <;> rw [hq, hh] at hok <;> cases hok <;> rfl
  | some q =>
    refine ⟨nofun, ?_⟩
    rintro _ ⟨⟩
    rw [hq] at hok
    obtain ⟨_, v, hqualify, hrest⟩ := bind_ok.1 hok
    rw [← qualified q v hqualify]
    cases hh : step.hint <;> rw [hh] at hrest <;> cases hrest <;> rfl

/-- A child is told what its step says. -/
theorem prepare_told {step : Step env.tree n} (hok : prepare env step w = .ok () w')
    (none : NoneTold w) (rule : (env.tree.kind step.child.val).consumesQualifier →
      step.qualifier = env.tree.mode? step.child.val) : Told env step.child.val w' := by
  obtain ⟨silent, spoken⟩ := prepare_qualifiers hok
  intro m
  have untold : w.qualifiers.find? m = .none := none m
  by_cases asks : (env.tree.kind step.child.val).consumesQualifier
  · cases hmode : env.tree.mode? step.child.val with
    | none => rw [silent ((rule asks).trans hmode), untold, ite_self]
    | some q =>
      rw [spoken q ((rule asks).trans hmode), if_pos asks, SideTable.find?_set, untold]
      exact if_congr eq_comm rfl rfl
  · rw [mode?_of_not_consumes (by simpa using asks), ite_self]
    cases hq : step.qualifier with
    | none => rw [silent hq, untold]
    | some q => rw [spoken q hq, if_neg asks, untold]

/-- What is done before the visit of a child does not change what it has been told. -/
theorem Done.told {as : List Action} (h : Done env n w as w') (child : c ∈ env.tree.children n)
    (told : Told env c w) : Told env c w' := by
  have hne : n ≠ c := by
    rintro rfl
    exact Nat.lt_irrefl _ (lt_of_mem_children child).1
  intro m
  by_cases hm : m = n
  · subst hm
    rw [if_neg hne]
    refine h.untold ?_
    rw [Untold, told, if_neg hne]
  · rw [h.find?_qualifiers hm, told]

/-- The steps of a plan that follows the rule. -/
theorem Rounds.modal {steps : List (Step env.tree n)}
    (h : Rounds env n w₀ (Modal env) steps w w') (none : NoneTold w)
    (rule : ∀ s ∈ steps, (env.tree.kind s.child.val).consumesQualifier →
      s.qualifier = env.tree.mode? s.child.val)
    (own : Marked (env.tree.kind n) → ∀ s ∈ steps, s.before = [] ∧ s.after = []) :
    NoneTold w' ∧ ByMode env.tree w.notes w'.notes ∧ Used env (stepsEntries env steps w) w' := by
  induction h with
  | nil w => exact ⟨none, .of_eq fun _ => rfl, by simp [Used, stepsEntries, collect]⟩
  | cons sound prepared tells before began visit visited child after once run others ih =>
    rename_i step rest w w₁ w₂ w₃ w₄ w'
    have told := before.told step.child.property
      (prepare_told prepared none (rule step List.mem_cons_self))
    obtain ⟨none₃, byMode, used⟩ := child (ne_root_of_mem_children step.child.property) told
    obtain ⟨none', rest', usedRest⟩ := ih (fun m => after.untold (none₃ m))
      (fun s hs => rule s (List.mem_cons_of_mem _ hs))
      (fun marked s hs => own marked s (List.mem_cons_of_mem _ hs))
    -- around the visit of the child, nothing is said about the use of a node
    obtain ⟨qualifiers, hints, rfl⟩ := tells.eq
    have ready : ByMode env.tree w.notes w₂.notes :=
      .of_eq (before.qualifiers fun marked => (own marked step List.mem_cons_self).1)
    have later : ByMode env.tree w₃.notes w'.notes :=
      (ByMode.of_eq (after.qualifiers fun marked => (own marked step List.mem_cons_self).2)).trans
        rest'
    refine ⟨none', ready.trans (byMode.trans later), ?_⟩
    rw [stepsEntries_of_ok run, Step.entries_of_done prepared before]
    exact (used.later later).append usedRest

theorem visit_modal (env : Env) (n : NodeId) {w w' : Walk} (hs : Sound w)
    (hok : visit env n w = .ok () w') : Modal env n w w' := by
  refine visit_rounds (P := Modal env) ?_ n hs hok
  intro n w plan v v' w' hs henter admitted rounds done visited hroot told
  have assigns := enter_assigns env n henter
  have entered := enter_byMode admitted told henter
  obtain ⟨none, stepped, used⟩ := rounds.modal (admitted.noneTold told.onlyTold)
    (fun s hs asks => by
      rw [assigns s hs, told.qualifierAt, mode?_child hroot s.child.property asks])
    fun marked => (enter_marked marked henter).1
  have left : ByMode env.tree v'.notes w'.notes :=
    .of_eq (done.qualifiers fun marked => (enter_marked marked henter).2.1)
  have later := stepped.trans left
  refine ⟨fun m => done.untold (none m), entered.trans later, ?_⟩
  rw [entries_of_ok henter]
  have usedHere : Used env [(n, w)] w' := by
    intro e he
    cases List.mem_singleton.1 he
    refine ⟨told, fun marked => later.keep marked ?_⟩
    rw [(enter_marked marked henter).2.2, Annotations.get_update_self, told.qualifierAt]
  exact usedHere.append (used.later left)

theorem visitUnit_modal {notes : Annotations} (hok : visitUnit env (start env notes) = .ok () w) :
    ByMode env.tree notes w.notes ∧ Used env (unitEntries env notes) w := by
  have rounds := visitUnit_rounds (fun c _ v v' hs hok => visit_modal env c hs hok) hok
  have plain : ∀ s ∈ unitSteps env, ∃ c, s = .plain c := by
    intro s hs
    obtain ⟨c, -, rfl⟩ := List.mem_map.1 hs
    exact ⟨c, rfl⟩
  obtain ⟨-, byMode, used⟩ := rounds.modal (fun _ => rfl)
    (fun s hs _ => by
      obtain ⟨c, rfl⟩ := plain s hs
      exact (mode?_child_root c.property).symm)
    fun _ s hs => by
      obtain ⟨c, rfl⟩ := plain s hs
      exact ⟨rfl, rfl⟩
  refine ⟨ByMode.trans (.of_eq fun k => ?_) byMode, used⟩
  rw [start, Annotations.get_update]
  split <;> rfl

end AblResolve.Walk

namespace AblResolve

open ParseTree Walk

/-- The kinds of nodes on which it is written how they are used, members apart. -/
def NodeKind.showsMode : NodeKind → Bool
  | field | record | expression | formItem | memoryManagementFunction => true
  | _ => false

theorem NodeKind.showsMode_asks {kind : NodeKind} (h : kind.showsMode) :
    kind.consumesQualifier ∧ kind ≠ .identifier := by
  cases kind <;> first | exact ⟨rfl, nofun⟩ | exact nomatch h

/-- Node `m` lies below node `n`, and all nodes between them are expressions and form items. -/
inductive ParseTree.Nested (t : ParseTree) (n : NodeId) : NodeId → Prop
  | part {c : NodeId} (child : c ∈ t.children n) : Nested t n c
  | deeper {m c : NodeId} (outer : Nested t n m)
      (kind : t.kind m = .expression ∨ t.kind m = .formItem) (child : c ∈ t.children m) :
      Nested t n c

theorem ParseTree.Nested.ne_root {t : ParseTree} {n m : NodeId} (h : t.Nested n m) : m ≠ root := by
  cases h with
  | part child | deeper _ _ child => exact ne_root_of_mem_children child

/-- What an expression is used for reaches all that is nested in it. -/
theorem ParseTree.Nested.mode {t : ParseTree} {n m : NodeId} (h : t.Nested n m) (hn : n ≠ root)
    (kind : t.kind n = .expression ∨ t.kind n = .formItem)
    (asks : (t.kind m).consumesQualifier) : t.mode m = t.mode n := by
  induction h with
  | part child => exact mode_child_of_expression hn child kind asks
  | deeper outer inner child ih =>
    rw [mode_child_of_expression outer.ne_root child inner asks]
    exact ih (by rcases inner with inner | inner <;> rw [inner] <;> rfl)

namespace CompilationUnit

/-- Units on which nothing is written but what successful analyses have found. -/
inductive FromClean : CompilationUnit → Prop
  | clean (tree : ParseTree) : FromClean (ofTree tree)
  | analyzed {u u' : CompilationUnit} {catalog : Catalog} {types : TypeRegistry}
      {options : Options} {index : UnitIndex} (before : FromClean u)
      (ok : u.analyze catalog types options = (.ok index, u')) : FromClean u'

/-- All qualifiers on such a unit are modes. -/
theorem FromClean.mode {u : CompilationUnit} (h : FromClean u) {n : NodeId} {q : Qualifier}
    (hq : (u.notes.get n).qualifier = some q) : q = u.tree.mode (u.tree.modeHolder n) := by
  induction h with
  | clean tree => simp [ofTree] at hq
  | analyzed _ ok ih =>
    obtain ⟨w, hvisit, -, rfl⟩ := analyze_ok _ _ _ ok
    rcases (visitUnit_modal hvisit).1 n with same | mode
    · exact ih (same.symm.trans hq)
    · exact Option.some.inj (hq.symm.trans mode)

theorem analyze_tree {u u' : CompilationUnit} {catalog : Catalog} {types : TypeRegistry}
    {options : Options} {index : UnitIndex}
    (h : u.analyze catalog types options = (.ok index, u')) : u'.tree = u.tree := by
  obtain ⟨w, -, -, rfl⟩ := analyze_ok _ _ _ h
  rfl

variable {catalog catalog' : Catalog} {types types' : TypeRegistry} {options options' : Options}

/-- Access modes are a matter of the constructs in a program alone. In two units of the same shape,
whatever their words, catalogs and types are, a node that has a qualifier in both has the same. In
each, an expression or form item that is visited has a qualifier, and so have, if any, all nodes
nested in it. -/
theorem analyze_modes {u u' v v' : CompilationUnit} {x y : UnitIndex} (hu : u.FromClean)
    (hv : v.FromClean) (shape : u.tree.SameShape v.tree)
    (h : u.analyze catalog types options = (.ok x, u'))
    (k : v.analyze catalog' types' options' = (.ok y, v')) :
    let env : Env := { tree := u.tree, catalog, types, options }
    (∀ n p q, (u'.notes.get n).qualifier = some p → (v'.notes.get n).qualifier = some q → p = q) ∧
      ∀ n w, (n, w) ∈ unitEntries env u.notes →
        (u.tree.kind n = .expression ∨ u.tree.kind n = .formItem) →
        ∃ q, (u'.notes.get n).qualifier = some q ∧
          ∀ m, u.tree.Nested n m → (u.tree.kind m).showsMode → ∀ p,
            (u'.notes.get m).qualifier = some p → p = q := by
  intro env
  have left := FromClean.analyzed hu h
  have right := FromClean.analyzed hv k
  refine ⟨fun n p q hp hq => ?_, fun n w he kind => ?_⟩
  · rw [left.mode hp, right.mode hq, analyze_tree h, analyze_tree k, shape.modeHolder, shape.mode]
  · obtain ⟨w', hvisit, -, rfl⟩ := analyze_ok _ _ _ h
    have entered := (visitUnit_modal hvisit).2 _ he
    have has := entered.2 (kind.imp_right .inl)
    refine ⟨_, has, fun m nested shows p hp => ?_⟩
    obtain ⟨asks, other⟩ := NodeKind.showsMode_asks shows
    rw [left.mode hp, modeHolder_of_ne other]
    exact nested.mode (ne_root_of_mem_unitEntries he) kind asks

/-- A variable that is assigned what something else holds. -/
def copySample (target source : String) : ParseTree := .ofRows [
  (0, .defineVariable, ""), (1, .identifier, target), (0, .assignEqual, ""), (3, .field, target),
  (3, .expression, ""), (5, .formItem, ""), (6, .field, source)]

/-- In one unit a variable is copied to itself, in the other a field of a database is copied; the
targets are written and the sources are read in both. -/
theorem analyze_modes_copies :
    let catalog : Catalog := ⟨[⟨"db", [{ name := "t", fields := [⟨"f", .character, 0⟩] }]⟩]⟩
    let u := copySample "a" "a"
    let v := copySample "b" "t.f"
    u.SameShape v ∧ ∃ x u' y v', (ofTree u).analyze {} {} {} = (.ok x, u') ∧
      (ofTree v).analyze catalog {} {} = (.ok y, v') ∧
      (u'.notes.get ⟨4⟩).qualifier = some .updating ∧ (u'.notes.get ⟨7⟩).qualifier = some .ref ∧
      (∀ n p q, (u'.notes.get n).qualifier = some p → (v'.notes.get n).qualifier = some q →
        p = q) ∧
      ∀ n w, (n, w) ∈ unitEntries { tree := u } (.blank u.size) →
        (u.kind n = .expression ∨ u.kind n = .formItem) →
        ∃ q, (u'.notes.get n).qualifier = some q ∧ ∀ m, u.Nested n m → (u.kind m).showsMode →
          ∀ p, (u'.notes.get m).qualifier = some p → p = q := by
  intro catalog u v
  have shape : u.SameShape v := by decide +kernel
  obtain ⟨x, hx⟩ := exists_analyze_ok (u := ofTree u) {} {} {} (by decide +kernel)
  obtain ⟨y, hy⟩ := exists_analyze_ok (u := ofTree v) catalog {} {} (by decide +kernel)
  have modes := analyze_modes (.clean u) (.clean v) shape hx hy
  exact ⟨shape, x, _, y, _, hx, hy, by decide +kernel, by decide +kernel, modes.1, modes.2⟩

end CompilationUnit

end AblResolve
