import AblResolve.Proofs.Unit
import Mathlib.Data.List.Destutter
/-!
Scopes and blocks are two trees that are in step: on the chain of a block one meets the scopes of
the chain of its scope, each as often as it has blocks there. Every scope is the body of a routine
that is defined in the scope around it, but for those of triggers and CATCH blocks.
-/
namespace AblResolve

/-- The elements form a tree: the first is the only one without a parent, and parents are older
than their children. -/
structure Arena.IsTree {e : Entity} {α : Type} (a : Arena e α) (parent : α → Option (Id e)) :
    Prop where
  root : 0 < a.size
  orphan : ∀ i v, a.get? i = some v → (parent v = none ↔ i = ⟨0⟩)
  older : ∀ i v p, a.get? i = some v → parent v = some p → p.val < i.val

theorem ScopeKind.isBody_eq_false {k : ScopeKind} :
    k.isBody = false ↔ k = .trigger ∨ k = .catch := by
  cases k <;> simp [isBody]

namespace UnitIndex

variable {x : UnitIndex}

/-- The scope that a block belongs to. -/
def blockScope? (x : UnitIndex) (b : BlockId) : Option ScopeId := (x.blocks.get? b).map (·.scope)

/-- The routine whose body a scope is. -/
def routineOf? (x : UnitIndex) (s : ScopeId) : Option SymbolId :=
  (x.scopes.get? s).bind (·.routine)

/-! ### The two trees -/

/-- The chain of every scope ends at the root. -/
theorem ScopeTree.getLast?_scopeChain (tree : x.ScopeTree) :
    ∀ s : ScopeId, s.val < x.scopes.size → (x.scopeChain s).getLast? = some rootScope := by
  refine tree.induct (P := fun s => (x.scopeChain s).getLast? = some rootScope) ?_ ?_
  · intro _ hnone
    rw [scopeChain_of_none hnone]
    rfl
  · intro s p _ hp older ih
    rw [scopeChain_of_some hp older, List.getLast?_cons, ih]
    rfl

/-- The chain of every block ends at the block of the unit. -/
theorem BlockTree.getLast?_blockChain (blocks : x.BlockTree) :
    ∀ i block, x.blocks.get? i = some block → (x.blockChain i).getLast? = some ⟨0⟩ := by
  refine blocks.induct (P := fun i _ => (x.blockChain i).getLast? = some ⟨0⟩) ?_ ?_
  · rintro i block - rfl - - hchain
    rw [hchain]
    rfl
  · intro i block p outer _ _ _ hchain _ _ ih
    rw [hchain, List.getLast?_cons, ih]
    rfl

/-- A block's parent is older; only the block of the unit has none. -/
theorem Lies.parent {i : BlockId} {block : Block} (h : x.Lies i block) :
    (block.parent = none ↔ i = ⟨0⟩) ∧ ∀ p, block.parent = some p → p.val < i.val := by
  cases h with
  | outermost first parent => simp [first, parent]
  | around parent older | inside parent older =>
    simp only [parent, reduceCtorEq, false_iff, Option.some.injEq, forall_eq']
    refine ⟨?_, older⟩
    rintro rfl
    exact Nat.not_lt_zero _ older

theorem ScopeOk.isOrphan {s : ScopeId} {scope : Scope} (h : x.ScopeOk s scope) :
    (scope.parent = none ↔ s = rootScope) ∧ ∀ p, scope.parent = some p → p.val < s.val := by
  rcases h.parent with ⟨hnone, hs⟩ | ⟨p, hp, older⟩
  · simp [hnone, hs]
  · simp only [hp, reduceCtorEq, false_iff, Option.some.injEq, forall_eq']
    refine ⟨?_, older⟩
    rintro rfl
    exact Nat.not_lt_zero _ older

/-! ### The trees in step -/

/-- Merging a repeated first entry. -/
theorem destutter_self {α : Type} [DecidableEq α] (a : α) (l : List α) :
    (a :: a :: l).destutter (· ≠ ·) = (a :: l).destutter (· ≠ ·) := by
  rw [List.destutter_cons', List.destutter'_cons_neg _ (by simp), ← List.destutter_cons']

theorem destutter_cons_ne {α : Type} [DecidableEq α] {a b : α} (h : a ≠ b) (l : List α) :
    (a :: b :: l).destutter (· ≠ ·) = a :: (b :: l).destutter (· ≠ ·) := by
  rw [List.destutter_cons', List.destutter'_cons_pos _ h, ← List.destutter_cons']

/-- The scopes of the blocks on a chain, merged where neighbours are equal, are those on the chain
of the block's scope. The list of scopes begins with the scope of the block itself. -/
theorem BlockTree.destutter_blockChain (blocks : x.BlockTree) (tree : x.ScopeTree) :
    ∀ i block, x.blocks.get? i = some block → ∃ rest,
      (x.blockChain i).filterMap x.blockScope? = block.scope :: rest ∧
      (block.scope :: rest).destutter (· ≠ ·) = x.scopeChain block.scope := by
  refine blocks.induct (P := fun i block => ∃ rest,
    (x.blockChain i).filterMap x.blockScope? = block.scope :: rest ∧
      (block.scope :: rest).destutter (· ≠ ·) = x.scopeChain block.scope) ?_ ?_
  · intro i block hblock _ _ hroot hchain
    have hown : x.blockScope? i = some block.scope := by simp [blockScope?, hblock]
    refine ⟨[], by simp [hchain, hown], ?_⟩
    rw [hroot, List.destutter_singleton]
    have hlt := (blocks hblock).1
    obtain ⟨scope, hscope⟩ := Arena.exists_get? hlt
    rw [hroot] at hscope
    rcases tree hscope with ⟨hnone, -⟩ | ⟨p, -, older⟩
    · rw [scopeChain_of_none (by simpa [parentScope?, hscope] using hnone)]
    · exact absurd older (Nat.not_lt_zero _)
  · intro i block p outer hblock houter _ hchain hroot hinner ih
    obtain ⟨rest, howners, hmerged⟩ := ih
    have hown : x.blockScope? i = some block.scope := by simp [blockScope?, hblock]
    refine ⟨outer.scope :: rest, by simp [hchain, hown, howners], ?_⟩
    by_cases hkind : block.kind = .root
    · -- the block around the code of a scope lies in the scope's parent
      obtain ⟨scope, hscope⟩ := Arena.exists_get? (blocks hblock).1
      have hparent := hroot hkind
      rcases tree hscope with ⟨hnone, -⟩ | ⟨q, hq, older⟩
      · simp [parentScope?, hscope, hnone] at hparent
      · have hsame : q = outer.scope := by
          simpa [parentScope?, hscope, hq] using hparent
        subst hsame
        rw [destutter_cons_ne (by rintro heq; simp [heq] at older), hmerged,
          scopeChain_of_some hparent older]
    · rw [← hinner hkind, destutter_self, hmerged]

/-! ### Routines -/

namespace Coherent

variable (h : x.Coherent)
include h

/-- A scope is the body of the routine that it has, and of no other. -/
theorem routine_iff {s : ScopeId} {scope : Scope} (hscope : x.scopes.get? s = some scope)
    (r : SymbolId) : scope.routine = some r ↔ x.IsRoutine r s := by
  refine ⟨(h.scopes hscope).routine r, ?_⟩
  rintro ⟨symbol, r', hsymbol, hkind, rfl⟩
  have ok := (h.symbols hsymbol).kind
  rw [hkind] at ok
  obtain ⟨scope', hscope', hroutine, -⟩ := ok
  rw [hscope] at hscope'
  cases hscope'
  exact hroutine

/-- A block around the code of a scope is that of one scope. -/
theorem existsUnique_around {b : BlockId} {block : Block} (hblock : x.blocks.get? b = some block)
    (hkind : block.kind = .root) : ∃! s, x.IsAround b s := by
  refine ⟨block.scope, (h.blocks hblock).around hkind, ?_⟩
  rintro s ⟨scope, hscope, rfl⟩
  obtain ⟨block', hblock', hsame, -⟩ := (h.scopes hscope).rootBlock
  rw [hblock] at hblock'
  cases hblock'
  exact hsame.symm

/-- A routine has one body, and it is defined in the scope around it. -/
theorem existsUnique_routineOf? {r : SymbolId} {symbol : Symbol} {routine : Routine}
    (hsymbol : x.symbols.get? r = some symbol) (hkind : symbol.kind = .routine routine) :
    (∃! s, x.routineOf? s = some r) ∧ x.IsBody routine.body r symbol.scope := by
  have ok := (h.symbols hsymbol).kind
  rw [hkind] at ok
  refine ⟨⟨routine.body, ?_, fun s hs => ?_⟩, ok⟩
  · obtain ⟨scope, hscope, hr, -⟩ := ok
    exact Option.bind_eq_some_iff.2 ⟨scope, hscope, hr⟩
  · obtain ⟨scope, hscope, hr⟩ := Option.bind_eq_some_iff.1 hs
    obtain ⟨symbol', routine', hsymbol', hkind', rfl⟩ := (h.routine_iff hscope r).1 hr
    rw [hsymbol] at hsymbol'
    cases hsymbol'
    rw [hkind] at hkind'
    cases hkind'
    rfl

/-- The block around the code of a scope lies in a block of the scope's parent. -/
theorem around_parent {s p : ScopeId} {scope : Scope} (hscope : x.scopes.get? s = some scope)
    (hparent : scope.parent = some p) : ∃ block b, x.blocks.get? scope.rootBlock = some block ∧
      block.parent = some b ∧ x.blockScope? b = some p := by
  obtain ⟨block, hblock, hsame, hkind⟩ := (h.scopes hscope).rootBlock
  have hp : x.parentScope? block.scope = some p := by simp [parentScope?, hsame, hscope, hparent]
  cases (h.blocks hblock).lies with
  | outermost _ _ _ hroot =>
    -- the scope of the outermost block is the root, which has no parent
    rw [hsame] at hroot
    rw [((h.scopes hscope).isOrphan).1.2 hroot] at hparent
    cases hparent
  | around parent _ found _ around =>
    refine ⟨block, _, hblock, parent, ?_⟩
    rw [blockScope?, found, ← hp, around]
    rfl
  | inside _ _ _ control => exact absurd hkind control

/-- A control block belongs to the scope of the block around it. -/
theorem control_parent {b : BlockId} {block : Block} (hblock : x.blocks.get? b = some block)
    (control : block.kind ≠ .root) :
    ∃ p, block.parent = some p ∧ x.blockScope? p = some block.scope := by
  cases (h.blocks hblock).lies with
  | outermost _ _ kind | around _ _ _ kind => exact absurd kind control
  | inside parent _ found _ same => exact ⟨_, parent, by rw [blockScope?, found, ← same]; rfl⟩

end Coherent

end UnitIndex

namespace CompilationUnit

open Walk UnitIndex

variable (catalog : Catalog) (types : TypeRegistry) (options : Options)

/-- Scopes and blocks are trees that are in step, and routines are defined where their bodies
begin. -/
theorem analyze_hierarchy {u u' : CompilationUnit} {index : UnitIndex}
    (hok : u.analyze catalog types options = (.ok index, u')) :
    index.scopes.IsTree (·.parent) ∧ index.blocks.IsTree (·.parent) ∧
    (∀ s scope, index.scopes.get? s = some scope →
      (index.scopeChain s).getLast? = some ⟨0⟩ ∧
      (∃ block, index.blocks.get? scope.rootBlock = some block ∧ block.kind = .root ∧
        block.scope = s) ∧
      (∀ p, scope.parent = some p → ∃ block b, index.blocks.get? scope.rootBlock = some block ∧
        block.parent = some b ∧ index.blockScope? b = some p) ∧
      (∀ r, scope.routine = some r ↔ index.IsRoutine r s) ∧
      (scope.routine = none ↔ scope.kind = .trigger ∨ scope.kind = .catch)) ∧
    (∀ b block, index.blocks.get? b = some block →
      (index.blockChain b).getLast? = some ⟨0⟩ ∧
      (block.kind = .root → ∃! s, index.IsAround b s) ∧
      (block.kind ≠ .root → ∃ p, block.parent = some p ∧
        index.blockScope? p = some block.scope) ∧
      ((index.blockChain b).filterMap index.blockScope?).destutter (· ≠ ·) =
        index.scopeChain block.scope) ∧
    (∀ r symbol routine, index.symbols.get? r = some symbol → symbol.kind = .routine routine →
      (∃! s, index.routineOf? s = some r) ∧
      ∃ scope, index.scopes.get? routine.body = some scope ∧ scope.routine = some r ∧
        scope.parent.getD ⟨0⟩ = symbol.scope) := by
  obtain ⟨w, hw, rfl, rfl⟩ := analyze_ok catalog types options hok
  have h := ((ends_visitUnit _ _).ok hw).1.sound.coherent
  have tree := h.scopeTree
  have blocks := h.blockTree
  refine ⟨⟨h.root_lt, ?_, ?_⟩, ⟨?_, ?_, ?_⟩, ?_, ?_, ?_⟩
  · exact fun s scope hscope => (h.scopes hscope).isOrphan.1
  · exact fun s scope p hscope => (h.scopes hscope).isOrphan.2 p
  · obtain ⟨scope, hscope, -⟩ := h.root
    obtain ⟨block, hblock, -⟩ := (h.scopes hscope).rootBlock
    exact Nat.zero_lt_of_lt (Arena.lt_size_of_get? hblock)
  · exact fun b block hblock => (h.blocks hblock).lies.parent.1
  · exact fun b block p hblock => (h.blocks hblock).lies.parent.2 p
  · intro s scope hscope
    refine ⟨tree.getLast?_scopeChain s (Arena.lt_size_of_get? hscope), ?_,
      fun p => h.around_parent hscope, h.routine_iff hscope, ?_⟩
    · obtain ⟨block, hblock, hsame, hkind⟩ := (h.scopes hscope).rootBlock
      exact ⟨block, hblock, hkind, hsame⟩
    · rw [← ScopeKind.isBody_eq_false, ← (h.scopes hscope).body, Option.isSome_eq_false_iff,
        Option.isNone_iff_eq_none]
  · intro b block hblock
    obtain ⟨rest, howners, hmerged⟩ := blocks.destutter_blockChain tree b block hblock
    exact ⟨blocks.getLast?_blockChain b block hblock, h.existsUnique_around hblock,
      h.control_parent hblock, howners ▸ hmerged⟩
  · intro r symbol routine hsymbol hkind
    obtain ⟨unique, scope, hscope, hr, hparent⟩ := h.existsUnique_routineOf? hsymbol hkind
    exact ⟨unique, scope, hscope, hr, hparent⟩

/-- A procedure with a trigger inside of a DO block, and another DO block in the trigger. -/
def nestedSample : ParseTree := .ofRows [
  (0, .procedureStatement, ""), (1, .identifier, "p"), (1, .doBlock, ""), (3, .onStatement, ""),
  (4, .doBlock, "")]

/-- In the sample, the innermost of the five blocks belongs to the trigger, and the scopes of the
blocks around it are the trigger, the procedure and the program. -/
theorem analyze_hierarchy_nested :
    ∃ index u, (ofTree nestedSample).analyze {} {} {} = (.ok index, u) ∧
      index.blockChain ⟨4⟩ = [⟨4⟩, ⟨3⟩, ⟨2⟩, ⟨1⟩, ⟨0⟩] ∧ index.scopeChain ⟨2⟩ = [⟨2⟩, ⟨1⟩, ⟨0⟩] ∧
      ((index.blockChain ⟨4⟩).filterMap index.blockScope?).destutter (· ≠ ·) =
        index.scopeChain ⟨2⟩ ∧
      (∃! s, index.routineOf? s = some ⟨1⟩) ∧ ∃! s, index.IsAround ⟨3⟩ s := by
  obtain ⟨index, hok, hchain, hscopes, ⟨inner, hinner, hscope⟩, ⟨outer, houter, hroot⟩,
      ⟨symbol, hsymbol, routine, hkind⟩⟩ :=
    exists_analyze_ok_and (u := ofTree nestedSample) {} {} {}
      (P := fun x => x.blockChain ⟨4⟩ = [⟨4⟩, ⟨3⟩, ⟨2⟩, ⟨1⟩, ⟨0⟩] ∧
        x.scopeChain ⟨2⟩ = [⟨2⟩, ⟨1⟩, ⟨0⟩] ∧
        (∃ block ∈ x.blocks.get? ⟨4⟩, block.scope = ⟨2⟩) ∧
        (∃ block ∈ x.blocks.get? ⟨3⟩, block.kind = .root) ∧
        ∃ symbol ∈ x.symbols.get? ⟨1⟩, ∃ r ∈ symbol.asRoutine?, symbol.kind = .routine r)
      (by decide +kernel)
  obtain ⟨-, -, -, blocks, routines⟩ := analyze_hierarchy {} {} {} hok
  obtain ⟨-, -, -, merged⟩ := blocks _ inner hinner
  exact ⟨index, _, hok, hchain, hscopes, hscope ▸ merged,
    (routines _ symbol routine hsymbol hkind.2).1, (blocks _ outer houter).2.1 hroot⟩

end CompilationUnit

end AblResolve
