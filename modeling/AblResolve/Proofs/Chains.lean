import AblResolve.Proofs.Growth
/-!
The chains of enclosing scopes and blocks. Scopes form a tree, and blocks form a tree that lies
over it: a control block belongs to the scope of the block around it, and the block around the
code of a scope lies in a block of the scope's parent. So the scopes of the blocks on a chain are
found on the chain of scopes.
-/
namespace AblResolve.UnitIndex

variable {x y : UnitIndex}

/-- Every scope but the root has an older parent. -/
def ScopeTree (x : UnitIndex) : Prop :=
  ∀ ⦃s : ScopeId⦄ ⦃scope : Scope⦄, x.scopes.get? s = some scope →
    scope.parent = none ∧ s = rootScope ∨ ∃ p, scope.parent = some p ∧ p.val < s.val

/-- Where a block lies: nowhere, if it is the block of the unit; around the code of its scope, in
a block of the parent scope; or as a control block in another block of its scope. -/
inductive Lies (x : UnitIndex) (i : BlockId) (block : Block) : Prop
  | outermost (first : i = ⟨0⟩) (parent : block.parent = none) (kind : block.kind = .root)
      (scope : block.scope = rootScope)
  | around {p : BlockId} {outer : Block} (parent : block.parent = some p)
      (older : p.val < i.val) (found : x.blocks.get? p = some outer)
      (kind : block.kind = .root) (scope : x.parentScope? block.scope = some outer.scope)
  | inside {p : BlockId} {outer : Block} (parent : block.parent = some p)
      (older : p.val < i.val) (found : x.blocks.get? p = some outer)
      (kind : block.kind ≠ .root) (scope : outer.scope = block.scope)

def BlockTree (x : UnitIndex) : Prop :=
  ∀ ⦃i : BlockId⦄ ⦃block : Block⦄, x.blocks.get? i = some block →
    block.scope.val < x.scopes.size ∧ x.Lies i block

/-! ### Scopes -/

theorem scopeChain_of_none {s : ScopeId} (h : x.parentScope? s = none) :
    x.scopeChain s = [s] := by
  rw [scopeChain, h]

theorem scopeChain_of_some {s p : ScopeId} (h : x.parentScope? s = some p)
    (older : p.val < s.val) : x.scopeChain s = s :: x.scopeChain p := by
  rw [scopeChain, h]
  exact if_pos older

theorem mem_scopeChain_self (x : UnitIndex) (s : ScopeId) : s ∈ x.scopeChain s := by
  rw [scopeChain]
  split
  · split <;> exact List.mem_cons_self
  · exact List.mem_cons_self

/-- The chain of a scope depends on the scopes alone. -/
theorem scopeChain_congr (h : y.scopes = x.scopes) (s : ScopeId) :
    y.scopeChain s = x.scopeChain s := by
  have parents : y.parentScope? = x.parentScope? := by
    funext s
    rw [parentScope?, h, parentScope?]
  fun_induction x.scopeChain s with
  | case1 s p hp older ih =>
    rw [scopeChain_of_some (by rw [parents, hp]) older, ih]
  | case2 s p hp younger =>
    rw [scopeChain, parents, hp]
    exact if_neg younger
  | case3 s hnone => exact scopeChain_of_none (by rw [parents, hnone])

theorem resolve?_congr (h : y.scopes = x.scopes) (s : ScopeId) (space : Namespace) (name : String) :
    y.resolve? s space name = x.resolve? s space name := by
  have finds : ∀ o, y.findIn? o space name = x.findIn? o space name := by
    intro o
    rw [findIn?, h, findIn?]
  simp only [resolve?, scopeChain_congr h, finds]

/-- What holds of the root and passes from a scope to the scopes in it holds of all scopes. -/
theorem ScopeTree.induct (tree : x.ScopeTree) {P : ScopeId → Prop}
    (root : rootScope.val < x.scopes.size → x.parentScope? rootScope = none → P rootScope)
    (child : ∀ s p, s.val < x.scopes.size → x.parentScope? s = some p → p.val < s.val →
      P p → P s) :
    ∀ s : ScopeId, s.val < x.scopes.size → P s := by
  intro s
  induction hn : s.val using Nat.strongRecOn generalizing s with
  | ind n ih =>
    intro hs
    obtain ⟨scope, hscope⟩ := Arena.exists_get? (hn ▸ hs : s.val < x.scopes.size)
    have hparent : x.parentScope? s = scope.parent := by rw [parentScope?, hscope]; rfl
    rcases tree hscope with ⟨hnone, rfl⟩ | ⟨p, hp, older⟩
    · exact root (hn ▸ hs) (hparent.trans hnone)
    · exact child s p (hn ▸ hs) (hparent.trans hp) older (ih p.val (hn ▸ older) p rfl (by omega))

theorem ScopeTree.root_mem (tree : x.ScopeTree) (s : ScopeId) (hs : s.val < x.scopes.size) :
    rootScope ∈ x.scopeChain s := by
  revert s
  refine tree.induct (P := fun s => rootScope ∈ x.scopeChain s) ?_ ?_
  · intro _ _
    exact mem_scopeChain_self _ _
  · intro s p _ hp older ih
    rw [scopeChain_of_some hp older]
    exact List.mem_cons_of_mem _ ih

theorem ScopeTree.mem_trans (tree : x.ScopeTree) {a b : ScopeId} (hab : a ∈ x.scopeChain b)
    (s : ScopeId) (hs : s.val < x.scopes.size) : b ∈ x.scopeChain s → a ∈ x.scopeChain s := by
  revert s
  refine tree.induct (P := fun s => b ∈ x.scopeChain s → a ∈ x.scopeChain s) ?_ ?_
  · intro _ hnone hb
    rw [scopeChain_of_none hnone, List.mem_singleton] at hb
    exact hb ▸ hab
  · intro s p _ hp older ih hb
    rw [scopeChain_of_some hp older] at hb ⊢
    rcases List.mem_cons.1 hb with rfl | hb
    · rwa [← scopeChain_of_some hp older]
    · exact List.mem_cons_of_mem _ (ih hb)

theorem ScopeTree.parent_mem (tree : x.ScopeTree) {s p : ScopeId} (hs : s.val < x.scopes.size)
    (hp : x.parentScope? s = some p) : p ∈ x.scopeChain s := by
  obtain ⟨scope, hscope⟩ := Arena.exists_get? hs
  have hparent : x.parentScope? s = scope.parent := by rw [parentScope?, hscope]; rfl
  rcases tree hscope with ⟨hnone, -⟩ | ⟨p', hp', older⟩
  · rw [hparent, hnone] at hp
    cases hp
  · rw [hparent, hp', Option.some.injEq] at hp
    subst hp
    rw [scopeChain_of_some (hparent.trans hp') older]
    exact List.mem_cons_of_mem _ (mem_scopeChain_self _ _)

theorem Extends.scopeChain (ext : x.Extends y) (tree : x.ScopeTree) (s : ScopeId)
    (hs : s.val < x.scopes.size) : y.scopeChain s = x.scopeChain s := by
  revert s
  refine tree.induct (P := fun s => y.scopeChain s = x.scopeChain s) ?_ ?_
  · intro hlt hnone
    rw [scopeChain_of_none hnone, scopeChain_of_none (by rw [ext.parentScope? hlt, hnone])]
  · intro s p hs hp older ih
    rw [scopeChain_of_some hp older, scopeChain_of_some (by rw [ext.parentScope? hs, hp]) older, ih]

/-- From scope `a` the symbol is in sight: its owner is `a` or a scope around it. -/
def Sees (x : UnitIndex) (a : ScopeId) (s : SymbolId) : Prop :=
  ∃ o, x.owner? s = some o ∧ o ∈ x.scopeChain a

theorem Sees.lt_size {a : ScopeId} {s : SymbolId} (h : x.Sees a s) : s.val < x.symbols.size := by
  obtain ⟨o, ho, -⟩ := h
  obtain ⟨symbol, hs, -⟩ := Option.map_eq_some_iff.1 ho
  exact Arena.lt_size_of_get? hs

theorem Sees.of_mem {a b : ScopeId} {s : SymbolId} (tree : x.ScopeTree)
    (ha : a.val < x.scopes.size) (h : x.Sees b s) (hb : b ∈ x.scopeChain a) : x.Sees a s := by
  obtain ⟨o, ho, hmem⟩ := h
  exact ⟨o, ho, tree.mem_trans hmem a ha hb⟩

theorem Sees.extends {a : ScopeId} {s : SymbolId} (ext : x.Extends y) (tree : x.ScopeTree)
    (ha : a.val < x.scopes.size) (h : x.Sees a s) : y.Sees a s := by
  obtain ⟨o, ho, hmem⟩ := h
  exact ⟨o, ext.owner?_eq_some ho, by rwa [ext.scopeChain tree a ha]⟩

/-! ### Blocks -/

theorem blockChain_of_none {i : BlockId} (h : x.parentBlock? i = none) :
    x.blockChain i = [i] := by
  rw [blockChain, h]

theorem blockChain_of_some {i p : BlockId} (h : x.parentBlock? i = some p)
    (older : p.val < i.val) : x.blockChain i = i :: x.blockChain p := by
  rw [blockChain, h]
  exact if_pos older

/-- What holds of the outermost block and passes from a block to the blocks that lie in it holds
of all blocks. -/
theorem BlockTree.induct (tree : x.BlockTree) {P : BlockId → Block → Prop}
    (outermost : ∀ i block, x.blocks.get? i = some block → i = ⟨0⟩ → block.kind = .root →
      block.scope = rootScope → x.blockChain i = [i] → P i block)
    (inner : ∀ i block p outer, x.blocks.get? i = some block → x.blocks.get? p = some outer →
      x.Lies i block → x.blockChain i = i :: x.blockChain p →
      (block.kind = .root → x.parentScope? block.scope = some outer.scope) →
      (block.kind ≠ .root → outer.scope = block.scope) → P p outer → P i block) :
    ∀ i block, x.blocks.get? i = some block → P i block := by
  intro i
  induction hn : i.val using Nat.strongRecOn generalizing i with
  | ind n ih =>
    intro block hblock
    have hparent : x.parentBlock? i = block.parent := by rw [parentBlock?, hblock]; rfl
    have lies := (tree hblock).2
    cases lies with
    | outermost first hp hkind hscope =>
      exact outermost i block hblock first hkind hscope (blockChain_of_none (hparent.trans hp))
    | around hp older found hkind hscope =>
      exact inner i block _ _ hblock found (.around hp older found hkind hscope)
        (blockChain_of_some (hparent.trans hp) older) (fun _ => hscope)
        (fun hne => absurd hkind hne) (ih _ (hn ▸ older) _ rfl _ found)
    | inside hp older found hkind hscope =>
      exact inner i block _ _ hblock found (.inside hp older found hkind hscope)
        (blockChain_of_some (hparent.trans hp) older) (fun heq => absurd heq hkind)
        (fun _ => hscope) (ih _ (hn ▸ older) _ rfl _ found)

theorem Extends.blockChain (ext : x.Extends y) (i : BlockId) (hi : i.val < x.blocks.size) :
    y.blockChain i = x.blockChain i := by
  rw [UnitIndex.blockChain, UnitIndex.blockChain, ext.parentBlock? hi]
  split
  · split
    · rename_i older
      rw [ext.blockChain _ (Nat.lt_trans older hi)]
    · rfl
  · rfl
termination_by i.val

/-- The scopes of enclosing blocks are enclosing scopes. -/
theorem BlockTree.scope_mem (blocks : x.BlockTree) (tree : x.ScopeTree) :
    ∀ i block, x.blocks.get? i = some block → ∀ j ∈ x.blockChain i,
      ∃ outer, x.blocks.get? j = some outer ∧ outer.scope ∈ x.scopeChain block.scope := by
  refine blocks.induct (P := fun i block => ∀ j ∈ x.blockChain i,
    ∃ outer, x.blocks.get? j = some outer ∧ outer.scope ∈ x.scopeChain block.scope) ?_ ?_
  · intro i block hblock _ _ _ hchain j hj
    rw [hchain, List.mem_singleton] at hj
    exact ⟨block, hj ▸ hblock, mem_scopeChain_self _ _⟩
  · intro i block p outer hblock houter _ hchain hroot hinner ih j hj
    rw [hchain] at hj
    rcases List.mem_cons.1 hj with rfl | hj
    · exact ⟨block, hblock, mem_scopeChain_self _ _⟩
    · obtain ⟨found, hfound, hmem⟩ := ih j hj
      refine ⟨found, hfound, ?_⟩
      by_cases hkind : block.kind = .root
      · have hlt := (blocks hblock).1
        exact tree.mem_trans hmem _ hlt (tree.parent_mem hlt (hroot hkind))
      · exact hinner hkind ▸ hmem

/-- A free reference binds its buffer at a block of the scope in which it stands. -/
theorem BlockTree.recordBlock? (blocks : x.BlockTree) :
    ∀ i block, x.blocks.get? i = some block →
      ∃ j target, x.recordBlock? i = some j ∧ x.blocks.get? j = some target ∧
        target.scope = block.scope := by
  refine blocks.induct (P := fun i block => ∃ j target, x.recordBlock? i = some j ∧
    x.blocks.get? j = some target ∧ target.scope = block.scope) ?_ ?_
  · intro i block hblock _ hkind _ hchain
    refine ⟨i, block, ?_, hblock, rfl⟩
    simp [UnitIndex.recordBlock?, hchain, hblock, Block.scopesRecords, hkind]
  · intro i block p outer hblock houter _ hchain _ hinner ih
    by_cases hrec : block.scopesRecords = true
    · refine ⟨i, block, ?_, hblock, rfl⟩
      simp [UnitIndex.recordBlock?, hchain, hblock, hrec]
    · have hkind : block.kind ≠ .root := by
        intro hkind
        simp [Block.scopesRecords, hkind] at hrec
      obtain ⟨j, target, hj, htarget, hscope⟩ := ih
      refine ⟨j, target, ?_, htarget, hscope.trans (hinner hkind)⟩
      simpa [UnitIndex.recordBlock?, hchain, hblock, hrec] using hj

end AblResolve.UnitIndex
