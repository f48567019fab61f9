import AblResolve.Proofs.Trail
import Mathlib.Data.List.Nodup
/-!
The bindings of buffers to blocks. A binding is listed by its own block and by no other, and only
once. Blocks differ in what they take: a DO block has to name a buffer of its own before references
are bound to it. However a buffer comes to be bound, a block has at most one binding of it besides
those that are made by name.
-/
namespace AblResolve

/-- What the bindings that a block lists are like; `bindings` are those of the unit. -/
structure Block.Lists (bindings : Arena .bufferScope BufferScope) (block : Block) : Prop where
  found : ∀ j ∈ block.bufferScopes, ∃ b, bindings.get? j = some b
  nodup : block.bufferScopes.Nodup
  strong : block.hasStrongScope = true ↔
    ∃ j ∈ block.bufferScopes, ∃ b, bindings.get? j = some b ∧ b.strength = .strong
  takes : ∀ j ∈ block.bufferScopes, ∀ b, bindings.get? j = some b → b.strength = .reference →
    block.scopesRecords = true
  alone : ∀ j ∈ block.bufferScopes, ∀ k ∈ block.bufferScopes, ∀ b c, bindings.get? j = some b →
    bindings.get? k = some c → b.buffer = c.buffer → b.strength ≠ .strong → c.strength ≠ .strong →
    j = k

/-- The bindings of a unit and its blocks agree. -/
structure Bindings (blocks : Arena .block Block) (bindings : Arena .bufferScope BufferScope) :
    Prop where
  lists : ∀ i block, blocks.get? i = some block → block.Lists bindings
  listed : ∀ j b, bindings.get? j = some b →
    ∃ block, blocks.get? b.block = some block ∧ j ∈ block.bufferScopes

section Block

variable {bindings : Arena .bufferScope BufferScope} {block : Block} {b : BufferScope}

theorem Block.scopesRecords_addBufferScope {id : BufferScopeId} {strength : Strength}
    (h : block.scopesRecords = true) : (block.addBufferScope id strength).scopesRecords = true := by
  unfold Block.scopesRecords at h ⊢
  unfold Block.addBufferScope
  cases hkind : block.kind <;> simp_all

/-- A block that lists nothing takes whatever its kind takes. -/
theorem Block.Lists.empty (h : block.bufferScopes = []) (weak : block.hasStrongScope = false) :
    block.Lists bindings := by
  constructor <;> simp [h, weak]

theorem Block.Lists.get?_push (h : block.Lists bindings) (b : BufferScope) :
    ∀ j ∈ block.bufferScopes, (bindings.push b).get? j = bindings.get? j := by
  intro j hj
  obtain ⟨c, hc⟩ := h.found j hj
  rw [hc, Arena.get?_push_of_get? hc]

/-- A binding to another block is no concern of this one. -/
theorem Block.Lists.push (h : block.Lists bindings) (b : BufferScope) :
    block.Lists (bindings.push b) := by
  have same := h.get?_push b
  constructor
  · intro j hj
    rw [same j hj]
    exact h.found j hj
  · exact h.nodup
  · rw [h.strong]
    constructor <;> rintro ⟨j, hj, c, hc, hstrong⟩ <;> refine ⟨j, hj, c, ?_, hstrong⟩
    · rwa [same j hj]
    · rwa [same j hj] at hc
  · intro j hj c hc
    rw [same j hj] at hc
    exact h.takes j hj c hc
  · intro j hj k hk c d hc hd
    rw [same j hj] at hc
    rw [same k hk] at hd
    exact h.alone j hj k hk c d hc hd

/-- With a new binding the block lists what it listed before, and the new one. -/
theorem Block.Lists.get?_add (h : block.Lists bindings) {strength : Strength} {j : BufferScopeId}
    (hj : j ∈ (block.addBufferScope bindings.next strength).bufferScopes) {c : BufferScope}
    (hc : (bindings.push b).get? j = some c) :
    j ∈ block.bufferScopes ∧ bindings.get? j = some c ∨ j = bindings.next ∧ c = b := by
  rcases List.mem_append.1 hj with hj | hj
  · exact .inl ⟨hj, (h.get?_push b j hj).symm.trans hc⟩
  · cases List.mem_singleton.1 hj
    rw [Arena.get?_push_next] at hc
    exact .inr ⟨rfl, (Option.some.inj hc).symm⟩

/-- A new binding to the block. -/
theorem Block.Lists.add (h : block.Lists bindings)
    (alone : b.strength ≠ .strong → ∀ j ∈ block.bufferScopes, ∀ c, bindings.get? j = some c →
      c.buffer ≠ b.buffer)
    (takes : b.strength = .reference → block.scopesRecords = true) :
    (block.addBufferScope bindings.next b.strength).Lists (bindings.push b) := by
  have same := h.get?_push b
  have new : (bindings.push b).get? bindings.next = some b := Arena.get?_push_next _ _
  have fresh : bindings.next ∉ block.bufferScopes := by
    intro hmem
    obtain ⟨c, hc⟩ := h.found _ hmem
    exact absurd (Arena.lt_size_of_get? hc) (Nat.lt_irrefl _)
  constructor
  · intro j hj
    rcases List.mem_append.1 hj with hj | hj
    · rw [same j hj]
      exact h.found j hj
    · cases List.mem_singleton.1 hj
      exact ⟨b, new⟩
  · refine List.nodup_append.2 ⟨h.nodup, by simp, ?_⟩
    rintro j hj _ hk rfl
    exact fresh (List.mem_singleton.1 hk ▸ hj)
  · constructor
    · intro hstrong
      rcases Bool.or_eq_true_iff.1 hstrong with hold | hnew
      · obtain ⟨j, hj, c, hc, hcs⟩ := h.strong.1 hold
        exact ⟨j, List.mem_append_left _ hj, c, (same j hj).trans hc, hcs⟩
      · exact ⟨_, List.mem_append_right _ (List.mem_singleton_self _), b, new,
          of_decide_eq_true hnew⟩
    · rintro ⟨j, hj, c, hc, hcs⟩
      refine Bool.or_eq_true_iff.2 ?_
      rcases h.get?_add hj hc with ⟨hj, hc⟩ | ⟨-, rfl⟩
      · exact .inl (h.strong.2 ⟨j, hj, c, hc, hcs⟩)
      · exact .inr (decide_eq_true hcs)
  · intro j hj c hc href
    apply Block.scopesRecords_addBufferScope
    rcases h.get?_add hj hc with ⟨hj, hc⟩ | ⟨-, rfl⟩
    · exact h.takes j hj c hc href
    · exact takes href
  · intro j hj k hk c d hc hd hsame hcs hds
    rcases h.get?_add hj hc with ⟨hjold, hcold⟩ | ⟨rfl, rfl⟩ <;>
      rcases h.get?_add hk hd with ⟨hkold, hdold⟩ | ⟨rfl, rfl⟩
    · exact h.alone j hjold k hkold c d hcold hdold hsame hcs hds
    · exact absurd hsame (alone hds j hjold c hcold)
    · exact absurd hsame.symm (alone hcs k hkold d hdold)
    · rfl

end Block

/-! ### Changes -/

namespace Bindings

variable {blocks : Arena .block Block} {bindings : Arena .bufferScope BufferScope}

/-- A new block. -/
theorem push (h : Bindings blocks bindings) {block : Block} (new : block.bufferScopes = [])
    (weak : block.hasStrongScope = false) : Bindings (blocks.push block) bindings where
  lists i b hb := by
    rcases Arena.get?_push_cases hb with ⟨-, rfl⟩ | hb
    · exact .empty new weak
    · exact h.lists i b hb
  listed j b hb := by
    obtain ⟨block, hblock, hj⟩ := h.listed j b hb
    exact ⟨block, Arena.get?_push_of_get? hblock, hj⟩

/-- A new binding. -/
theorem bind (h : Bindings blocks bindings) {block : Block} {b : BufferScope}
    (found : blocks.get? b.block = some block)
    (alone : b.strength ≠ .strong → ∀ j ∈ block.bufferScopes, ∀ c, bindings.get? j = some c →
      c.buffer ≠ b.buffer)
    (takes : b.strength = .reference → block.scopesRecords = true) :
    Bindings (blocks.update b.block (·.addBufferScope bindings.next b.strength))
      (bindings.push b) where
  lists i block' hblock' := by
    rcases Arena.get?_update_cases hblock' with ⟨rfl, old, hold, rfl⟩ | ⟨-, hblock'⟩
    · rw [found] at hold
      cases hold
      exact (h.lists _ _ found).add alone takes
    · exact (h.lists i block' hblock').push b
  listed j c hc := by
    rcases Arena.get?_push_cases hc with ⟨rfl, rfl⟩ | hc
    · refine ⟨_, by rw [Arena.get?_update, if_pos rfl, found]; rfl, ?_⟩
      exact List.mem_append_right _ (List.mem_singleton_self _)
    · obtain ⟨outer, houter, hj⟩ := h.listed j c hc
      rw [Arena.get?_update]
      split
      · rename_i hsame
        rw [houter]
        exact ⟨_, rfl, List.mem_append_left _ hj⟩
      · exact ⟨outer, houter, hj⟩

end Bindings

namespace UnitIndex

/-- The bindings of the unit are in order. -/
def BindingsOk (x : UnitIndex) : Prop := Bindings x.blocks x.bufferScopes

theorem Change.bindings {x y : UnitIndex} {opened : List SymbolId} {typing tabling : Prop}
    (c : x.Change opened typing tabling y)
    (h : x.BindingsOk) : y.BindingsOk := by
  cases c with
  | bind found bindable =>
    rename_i i block buffer strength
    refine Bindings.bind (b := ⟨i, buffer, strength⟩) h found (fun hstrength j hj c hc => ?_)
      bindable.takes
    have hother := bindable.alone hstrength j hj
    simpa [scopesBuffer, hc] using hother
  | openScope | openRoutine | openBlock => exact Bindings.push h rfl rfl
  | _ => exact h

/-! ### What follows from the order of the bindings -/

namespace BindingsOk

variable {x : UnitIndex} (h : x.BindingsOk)
include h

theorem mem_bufferScopesOf {id : BufferScopeId} {b : BufferScope}
    (hb : x.bufferScopes.get? id = some b) : id ∈ x.bufferScopesOf b.block := by
  obtain ⟨block, hblock, hmem⟩ := h.listed id b hb
  simpa [bufferScopesOf, hblock] using hmem

theorem nodup_bufferScopesOf (i : BlockId) : (x.bufferScopesOf i).Nodup := by
  unfold bufferScopesOf
  split
  · exact (h.lists i _ ‹_›).nodup
  · exact List.nodup_nil

end BindingsOk

/-- A block lists its own bindings only. -/
theorem Coherent.block_of_mem {x : UnitIndex} (hx : x.Coherent) {i : BlockId} {id : BufferScopeId}
    (hid : id ∈ x.bufferScopesOf i) :
    ∃ b, x.bufferScopes.get? id = some b ∧ b.block = i := by
  unfold bufferScopesOf at hid
  split at hid
  · exact (hx.blocks ‹_›).bufferScopes id hid
  · cases hid

/-- A binding is listed once, by its own block. -/
theorem BindingsOk.count {x : UnitIndex} (h : x.BindingsOk) (hx : x.Coherent) {id : BufferScopeId}
    {b : BufferScope} (hb : x.bufferScopes.get? id = some b) (i : BlockId) :
    (x.bufferScopesOf i).count id = if i = b.block then 1 else 0 := by
  split
  · rename_i hi
    subst hi
    exact List.count_eq_one_of_mem (h.nodup_bufferScopesOf _) (h.mem_bufferScopesOf hb)
  · rename_i hi
    refine List.count_eq_zero_of_not_mem fun hmem => hi ?_
    obtain ⟨b', hb', rfl⟩ := hx.block_of_mem hmem
    rw [hb] at hb'
    cases hb'
    rfl

/-- A reference is bound to a block that takes references. -/
theorem BindingsOk.takes {x : UnitIndex} (h : x.BindingsOk) {id : BufferScopeId} {b : BufferScope}
    (hb : x.bufferScopes.get? id = some b) (reference : b.strength = .reference) :
    ∃ block, x.blocks.get? b.block = some block ∧ block.scopesRecords = true := by
  obtain ⟨block, hblock, hmem⟩ := h.listed id b hb
  exact ⟨block, hblock, (h.lists _ _ hblock).takes id hmem b hb reference⟩

/-- A DO block takes references if and only if it names a buffer of its own. -/
theorem BindingsOk.do_takes_iff {x : UnitIndex} (h : x.BindingsOk) (hx : x.Coherent) {i : BlockId}
    {block : Block} (hblock : x.blocks.get? i = some block) (hkind : block.kind = .do) :
    block.scopesRecords = true ↔ ∃ id b, x.bufferScopes.get? id = some b ∧ b.block = i ∧
      b.strength = .strong := by
  have hstrong : block.scopesRecords = block.hasStrongScope := by
    rw [Block.scopesRecords, hkind]
  rw [hstrong, (h.lists i block hblock).strong]
  constructor
  · rintro ⟨id, hid, b, hb, hbs⟩
    obtain ⟨b', hb', rfl⟩ := (hx.blocks hblock).bufferScopes id hid
    rw [hb] at hb'
    cases hb'
    exact ⟨id, b, hb, rfl, hbs⟩
  · rintro ⟨id, b, hb, rfl, hbs⟩
    obtain ⟨block', hblock', hmem⟩ := h.listed id b hb
    rw [hblock] at hblock'
    cases hblock'
    exact ⟨id, hmem, b, hb, hbs⟩

/-- Two bindings of a buffer to a block are the same unless one is made by name. -/
theorem BindingsOk.alone {x : UnitIndex} (h : x.BindingsOk) {id id' : BufferScopeId}
    {b b' : BufferScope} (hb : x.bufferScopes.get? id = some b)
    (hb' : x.bufferScopes.get? id' = some b') (block : b.block = b'.block)
    (buffer : b.buffer = b'.buffer) (hs : b.strength ≠ .strong) (hs' : b'.strength ≠ .strong) :
    id = id' := by
  obtain ⟨outer, houter, hmem⟩ := h.listed id b hb
  obtain ⟨outer', houter', hmem'⟩ := h.listed id' b' hb'
  rw [← block, houter] at houter'
  cases houter'
  exact (h.lists _ _ houter).alone id hmem id' hmem' b b' hb hb' buffer hs hs'

end UnitIndex

namespace Walk

open UnitIndex

section Trail

variable {env : Env} {n : NodeId} {w₀ w w' : Walk} {es : List (NodeId × Walk)} {rs : List NodeId}

theorem Runs.bindings (runs : Runs env n w w') (h : w.index.BindingsOk) : w'.index.BindingsOk := by
  induction runs with
  | refl => exact h
  | tail _ step ih =>
    rcases step with move | turn
    · cases move with
      | index change => exact change.bindings ih
      | _ => exact ih
    · cases turn <;> exact ih

theorem Enters.bindings (enters : Enters env n w w') (h : w.index.BindingsOk) :
    w'.index.BindingsOk := by
  cases enters with
  | plain runs => exact Runs.bindings runs h
  | refer moves expects refer =>
    have before := Runs.bindings moves.runs h
    cases refer with
    | field =>
      unfold countedField
      split <;> exact before
    | _ => exact before
  | miss moves miss =>
    have before := Runs.bindings moves.runs h
    cases miss <;> exact before

/-- At every moment of a walk, the bindings are in order. -/
theorem Trail.bindings (trail : Trail env w₀ es rs w) (hs : Sound w₀) (h : w₀.index.BindingsOk) :
    w.index.BindingsOk := by
  induction trail with
  | start => exact h
  | enter before entered ih =>
    exact ((ends_enter env _ (before.sound hs)).ok entered).enters.bindings ih
  | tell _ tells ih =>
    obtain ⟨qualifiers, hints, rfl⟩ := tells.eq
    exact ih
  | run _ runs _ ih => exact Runs.bindings runs ih
  | use _ _ _ ih => exact ih
  | bind _ _ _ binds ih => exact binds.change.bindings ih

theorem bindings_start (env : Env) (notes : Annotations) :
    (start env notes).index.BindingsOk := by
  have nothing : Bindings ⟨#[]⟩ ⟨#[]⟩ := by constructor <;> simp [Arena.get?]
  exact nothing.push rfl rfl

end Trail

end Walk

end AblResolve
