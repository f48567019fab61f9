import AblResolve.Proofs.BufferWidgets
import AblResolve.Proofs.Defaulting
import AblResolve.Proofs.Flags
import Mathlib.Data.List.Basic
/-!
The binding that a reference to a buffer uses. It is the first one of the buffer on the nearest
block that has any, and one is made only if no block around has one. Searching the blocks for a
buffer and searching them for a field by its bare name come to the same binding, so that it makes no
difference in which way a field is named.
-/
namespace AblResolve

/-- Blocks list their own bindings, all of them, in the order in which they were made. -/
structure ListsInOrder (blocks : Arena .block Block) (bindings : Arena .bufferScope BufferScope) :
    Prop where
  own : ∀ i block, blocks.get? i = some block → ∀ id ∈ block.bufferScopes,
    ∃ b, bindings.get? id = some b ∧ b.block = i
  listed : ∀ id b, bindings.get? id = some b →
    ∃ block, blocks.get? b.block = some block ∧ id ∈ block.bufferScopes
  increasing : ∀ i block, blocks.get? i = some block →
    block.bufferScopes.Pairwise fun id later => id.val < later.val

namespace ListsInOrder

variable {blocks : Arena .block Block} {bindings : Arena .bufferScope BufferScope}

/-- A new block. -/
theorem push (h : ListsInOrder blocks bindings) {block : Block} (new : block.bufferScopes = []) :
    ListsInOrder (blocks.push block) bindings where
  own i b hb := by
    rcases Arena.get?_push_cases hb with ⟨-, rfl⟩ | hb
    · simp [new]
    · exact h.own i b hb
  listed id b hb := by
    obtain ⟨outer, houter, hid⟩ := h.listed id b hb
    exact ⟨outer, Arena.get?_push_of_get? houter, hid⟩
  increasing i b hb := by
    rcases Arena.get?_push_cases hb with ⟨-, rfl⟩ | hb
    · simp [new]
    · exact h.increasing i b hb

/-- A new binding comes after all others. -/
theorem bind (h : ListsInOrder blocks bindings) {block : Block} {b : BufferScope}
    (found : blocks.get? b.block = some block) :
    ListsInOrder (blocks.update b.block (·.addBufferScope bindings.next b.strength))
      (bindings.push b) where
  own i block' hblock' id hid := by
    rcases Arena.get?_update_cases hblock' with ⟨rfl, old, hold, rfl⟩ | ⟨-, hblock'⟩
    · rcases List.mem_append.1 hid with hid | hid
      · obtain ⟨c, hc, hblock⟩ := h.own _ _ hold id hid
        exact ⟨c, Arena.get?_push_of_get? hc, hblock⟩
      · cases List.mem_singleton.1 hid
        exact ⟨b, Arena.get?_push_next _ _, rfl⟩
    · obtain ⟨c, hc, hblock⟩ := h.own _ _ hblock' id hid
      exact ⟨c, Arena.get?_push_of_get? hc, hblock⟩
  listed id c hc := by
    rw [Arena.get?_update]
    rcases Arena.get?_push_cases hc with ⟨rfl, rfl⟩ | hc
    · rw [if_pos rfl, found]
      exact ⟨_, rfl, List.mem_append_right _ (List.mem_singleton_self _)⟩
    · obtain ⟨outer, houter, hid⟩ := h.listed id c hc
      rw [houter]
      split
      · exact ⟨_, rfl, List.mem_append_left _ hid⟩
      · exact ⟨outer, rfl, hid⟩
  increasing i block' hblock' := by
    rcases Arena.get?_update_cases hblock' with ⟨rfl, old, hold, rfl⟩ | ⟨-, hblock'⟩
    · refine List.pairwise_append.2 ⟨h.increasing _ _ hold, List.pairwise_singleton _ _, ?_⟩
      intro id hid later hlater
      cases List.mem_singleton.1 hlater
      obtain ⟨c, hc, -⟩ := h.own _ _ hold id hid
      exact Arena.lt_size_of_get? hc
    · exact h.increasing i block' hblock'

end ListsInOrder

namespace UnitIndex

variable {x y : UnitIndex} {block : BlockId} {b : SymbolId} {id : BufferScopeId}

def BindingsInOrder (x : UnitIndex) : Prop := ListsInOrder x.blocks x.bufferScopes

theorem BindingsInOrder.bound (h : x.BindingsInOrder) {i : BlockId} {target : Block}
    (found : x.blocks.get? i = some target) (buffer : SymbolId) (strength : Strength) :
    (x.bound i buffer strength).BindingsInOrder :=
  ListsInOrder.bind (b := ⟨i, buffer, strength⟩) h found

theorem Change.bindingsInOrder {opened : List SymbolId} {typing tabling : Prop}
    (c : x.Change opened typing tabling y) (h : x.BindingsInOrder) : y.BindingsInOrder := by
  cases c with
  | bind found => exact h.bound found _ _
  | openScope | openRoutine | openBlock => exact ListsInOrder.push h rfl
  | _ => exact h

/-! ### The innermost binding -/

/-- The binding of a buffer that a reference made in `block` uses: on the nearest block that has
one, the earliest. -/
def Innermost (x : UnitIndex) (block : BlockId) (b : SymbolId) (id : BufferScopeId) : Prop :=
  ∃ binding near outer, x.bufferScopes.get? id = some binding ∧ binding.buffer = b ∧
    x.blockChain block = near ++ binding.block :: outer ∧
    ∀ other c, x.bufferScopes.get? other = some c → c.buffer = b →
      c.block ∉ near ∧ (c.block = binding.block → id.val ≤ other.val)

theorem scopesBuffer_eq_true : x.scopesBuffer b id = true ↔
    ∃ binding, x.bufferScopes.get? id = some binding ∧ binding.buffer = b := by
  unfold scopesBuffer
  cases x.bufferScopes.get? id <;> simp

theorem BindingsInOrder.mem_bufferScopesOf (h : x.BindingsInOrder) {binding : BufferScope}
    (found : x.bufferScopes.get? id = some binding) : id ∈ x.bufferScopesOf binding.block := by
  obtain ⟨block, hblock, mem⟩ := h.listed id binding found
  simpa [bufferScopesOf, hblock] using mem

/-- The search from the inside finds the innermost binding. -/
theorem BindingsInOrder.innermost (h : x.BindingsInOrder)
    (found : x.enclosingBufferScope? block b = some id) : x.Innermost block b id := by
  rw [enclosingBufferScope?, enclosingBufferScopes, List.find?_flatMap] at found
  obtain ⟨near, i, outer, hchain, hfind, before⟩ := List.findSome?_eq_some_iff.1 found
  obtain ⟨isBinding, earlier, later, hlist, unbound⟩ := List.find?_eq_some_iff_append.1 hfind
  obtain ⟨binding, hbinding, hbuffer⟩ := scopesBuffer_eq_true.1 isBinding
  obtain ⟨target, htarget, hscopes⟩ : ∃ target, x.blocks.get? i = some target ∧
      target.bufferScopes = earlier ++ id :: later := by
    rw [bufferScopesOf] at hlist
    cases hi : x.blocks.get? i with
    | none => simp [hi] at hlist
    | some target => exact ⟨target, rfl, by simpa [hi] using hlist⟩
  obtain ⟨same, hsame, hblock⟩ := h.own i target htarget id (by simp [hscopes])
  rw [hbinding] at hsame
  cases hsame
  refine ⟨binding, near, outer, hbinding, hbuffer, hblock ▸ hchain, fun other c hc hcb => ?_⟩
  have mem := h.mem_bufferScopesOf hc
  have isBound := scopesBuffer_eq_true.2 ⟨c, hc, hcb⟩
  refine ⟨fun hnear => ?_, fun sameBlock => ?_⟩
  · exact List.find?_eq_none.1 (before _ hnear) other mem isBound
  · rw [sameBlock, hblock, hlist] at mem
    have increasing := h.increasing i target htarget
    rw [hscopes] at increasing
    rcases List.mem_append.1 mem with mem | mem
    · have not := unbound other mem
      rw [isBound] at not
      cases not
    · rcases List.mem_cons.1 mem with rfl | mem
      · exact Nat.le_refl _
      · exact (List.rel_of_pairwise_cons (List.pairwise_append.1 increasing).2.1 mem).le

/-! ### A binding that is made -/

theorem blockChain_congr (parents : y.parentBlock? = x.parentBlock?) (i : BlockId) :
    y.blockChain i = x.blockChain i := by
  fun_induction x.blockChain i with
  | case1 i p hp older ih =>
    rw [blockChain_of_some (by rw [parents, hp]) older, ih]
  | case2 i p hp younger =>
    rw [blockChain, parents, hp]
    exact if_neg younger
  | case3 i hnone => exact blockChain_of_none (by rw [parents, hnone])

/-- The search for a binding depends on the blocks and the bindings alone. -/
theorem enclosingBufferScope?_congr (blocks : y.blocks = x.blocks)
    (bindings : y.bufferScopes = x.bufferScopes) (block : BlockId) (b : SymbolId) :
    y.enclosingBufferScope? block b = x.enclosingBufferScope? block b := by
  have parents : y.parentBlock? = x.parentBlock? := by
    funext i
    rw [parentBlock?, blocks, parentBlock?]
  have listed : y.bufferScopesOf = x.bufferScopesOf := by
    funext i
    rw [bufferScopesOf, blocks, bufferScopesOf]
  have scopes : y.scopesBuffer b = x.scopesBuffer b := by
    funext id
    rw [scopesBuffer, bindings, scopesBuffer]
  rw [enclosingBufferScope?, enclosingBufferScopes, blockChain_congr parents, listed, scopes,
    enclosingBufferScope?, enclosingBufferScopes]

theorem enclosingBufferScope?_eq_none : x.enclosingBufferScope? block b = none ↔
    ∀ i ∈ x.blockChain block, ∀ id ∈ x.bufferScopesOf i, x.scopesBuffer b id = false := by
  simp [enclosingBufferScope?, enclosingBufferScopes, List.find?_eq_none]

theorem blockChain_bound (i block : BlockId) (b : SymbolId) (strength : Strength) :
    (x.bound i b strength).blockChain block = x.blockChain block := by
  refine blockChain_congr ?_ block
  funext j
  exact Arena.bind_get?_update (a := x.blocks) (i := i) (f := Block.parent)
    (g := (·.addBufferScope x.bufferScopes.next strength)) (fun _ _ => rfl) j

/-- A buffer that is bound to no block around is found where it is bound then. -/
theorem BindingsInOrder.enclosingBufferScope?_bound (h : x.BindingsInOrder) {i : BlockId}
    {target : Block} {strength : Strength} {near outer : List BlockId}
    (unbound : x.enclosingBufferScope? block b = none)
    (chain : x.blockChain block = near ++ i :: outer) (apart : i ∉ near)
    (found : x.blocks.get? i = some target) :
    (x.bound i b strength).enclosingBufferScope? block b = some x.bufferScopes.next := by
  have none := enclosingBufferScope?_eq_none.1 unbound
  rw [chain] at none
  -- what is listed already is bound as before
  have old : ∀ j ∈ near ++ i :: outer, ∀ id ∈ x.bufferScopesOf j,
      (x.bound i b strength).scopesBuffer b id = false := by
    intro j hj id hid
    have listed := hid
    unfold bufferScopesOf at listed
    split at listed
    · obtain ⟨c, hc, -⟩ := h.own j _ ‹_› id listed
      have kept : (x.bufferScopes.push ⟨i, b, strength⟩).get? id = some c :=
        Arena.get?_push_of_get? hc
      have other := none j hj id hid
      rw [scopesBuffer, hc] at other
      rw [scopesBuffer, UnitIndex.bound, kept]
      exact other
    · cases listed
  have here : (x.bound i b strength).bufferScopesOf i =
      x.bufferScopesOf i ++ [x.bufferScopes.next] := by
    simp [bufferScopesOf, UnitIndex.bound, Arena.get?_update, found, Block.addBufferScope]
  rw [enclosingBufferScope?, enclosingBufferScopes, blockChain_bound, chain, List.find?_flatMap]
  refine List.findSome?_eq_some_iff.2 ⟨near, i, outer, rfl, ?_, fun j hj => ?_⟩
  · rw [here]
    refine List.find?_eq_some_iff_append.2 ⟨?_, _, [], rfl, fun id hid => ?_⟩
    · exact scopesBuffer_eq_true.2 ⟨_, Arena.get?_push_next _ _, rfl⟩
    · simp [old i (by simp) id hid]
  · have other : i ≠ j := fun same => apart (same ▸ hj)
    have same : (x.bound i b strength).bufferScopesOf j = x.bufferScopesOf j := by
      simp [bufferScopesOf, UnitIndex.bound, Arena.get?_update, other]
    rw [same, List.find?_eq_none]
    intro id hid
    simp [old j (List.mem_append_left _ hj) id hid]

end UnitIndex

namespace Walk

open UnitIndex

variable {env : Env} {n : NodeId} {notes : Annotations} {w w' v : Walk} {name : String}
  {b : SymbolId} {id : BufferScopeId}

/-! ### The order of the bindings -/

theorem Stride.bindingsInOrder (stride : Stride w w') (h : w.index.BindingsInOrder) :
    w'.index.BindingsInOrder := by
  cases stride with
  | change change => exact change.bindingsInOrder h
  | turn turn => cases turn <;> exact h
  | refer refers =>
    rw [refers.rest]
    exact h

theorem Reached.bindingsInOrder (reached : Reached env notes w) : w.index.BindingsInOrder := by
  have nothing : ListsInOrder ⟨#[]⟩ ⟨#[]⟩ := by constructor <;> simp [Arena.get?]
  exact (reached.keep (sound_start env notes) (fun _ _ _ _ stride => stride.bindingsInOrder)
    (nothing.push rfl)).2

/-! ### Binding by a reference -/

/-- The buffer is bound to no block around, and a reference binds it to the nearest block that takes
references. That block belongs to the current scope. -/
structure BindsAnew (w : Walk) (b : SymbolId) (id : BufferScopeId) (v : Walk) : Prop where
  unbound : ∀ other, ¬ w.Binds other b
  fresh : id = w.index.bufferScopes.next
  made : ∃ near i outer target, w.index.blockChain w.block = near ++ i :: outer ∧
    (∀ j ∈ near, ∀ block, w.index.blocks.get? j = some block → block.scopesRecords = false) ∧
    w.index.blocks.get? i = some target ∧ target.scopesRecords = true ∧ target.scope = w.scope ∧
    v = { w with index := w.index.bound i b .reference }

theorem Reached.enclosingBufferScope?_eq_none (reached : Reached env notes w) :
    w.index.enclosingBufferScope? w.block b = none ↔ ∀ id, ¬ w.Binds id b := by
  rw [UnitIndex.enclosingBufferScope?_eq_none]
  constructor
  · rintro none id ⟨binding, hid, hbuffer, around⟩
    have other := none _ around id (reached.bindingsInOrder.mem_bufferScopesOf hid)
    rw [scopesBuffer_eq_true.2 ⟨binding, hid, hbuffer⟩] at other
    cases other
  · intro unbound i hi id hid
    refine Bool.eq_false_iff.2 fun hb => unbound id (reached.sound.binds_of_mem ?_ hb)
    exact List.mem_flatMap.2 ⟨i, hi, hid⟩

/-- A reference uses the binding that the search finds, or it makes one. -/
theorem ends_bindReference_anew (reached : Reached env notes w) (b : SymbolId) :
    Ends (bindReference b) w Never fun id v =>
      v = w ∧ w.index.enclosingBufferScope? w.block b = some id ∨ w.BindsAnew b id v := by
  have hs := reached.sound
  obtain ⟨block, hblock, hscope⟩ := hs.current
  obtain ⟨i, target, hi, htarget, hsame⟩ := hs.coherent.blockTree.recordBlock? _ _ hblock
  unfold bindReference
  rw [ends_bind, ends_currentBlock hs, ends_bind, ends_theIndex]
  cases hfind : w.index.enclosingBufferScope? w.block b with
  | some id => exact .inl ⟨rfl, rfl⟩
  | none =>
    rw [show w.index.recordBlock? w.block = some i from hi]
    dsimp only
    rw [ends_addBufferScope htarget]
    obtain ⟨takes, near, outer, chain, none⟩ := List.find?_eq_some_iff_append.1 hi
    refine .inr ⟨reached.enclosingBufferScope?_eq_none.1 hfind, rfl, near, i, outer, target, chain,
      fun j hj other hother => ?_, htarget, ?_, hsame.trans hscope, rfl⟩
    · simpa [hother] using none j hj
    · simpa [htarget] using takes

/-- The next search finds the binding that has been made. -/
theorem BindsAnew.found (h : w.BindsAnew b id v) (reached : Reached env notes w) :
    v.index.enclosingBufferScope? v.block b = some id := by
  obtain ⟨near, i, outer, target, chain, near_blocks, found, takes, -, rfl⟩ := h.made
  rw [h.fresh]
  refine reached.bindingsInOrder.enclosingBufferScope?_bound
    (reached.enclosingBufferScope?_eq_none.2 h.unbound) chain (fun hi => ?_) found
  rw [near_blocks i hi target found] at takes
  cases takes

theorem BindsAnew.bindingsInOrder (h : w.BindsAnew b id v) (reached : Reached env notes w) :
    v.index.BindingsInOrder := by
  obtain ⟨near, i, outer, target, -, -, found, -, -, rfl⟩ := h.made
  exact reached.bindingsInOrder.bound found b .reference

/-- What the search finds is used and nothing changes. -/
theorem bindReference_of_found (standing : w.blockStack ≠ [])
    (found : w.index.enclosingBufferScope? w.block b = some id) :
    bindReference b w = .ok id w := by
  have current : currentBlock w = .ok w.block w := by
    have read : (get : WalkM Walk) w = .ok w w := rfl
    unfold currentBlock Walk.block Walk.frame Frame.block
    rw [bind_of_ok read]
    cases hstack : w.blockStack with
    | nil => exact absurd hstack standing
    | cons i rest => rfl
  unfold bindReference
  rw [bind_of_ok current, bind_of_ok (m := theIndex) rfl, found]
  rfl

/-! ### Fields reached through a buffer -/

variable {f : FieldId} {binding : Bool}

theorem fieldBuffer_of_listed {owner : Symbol} {t : TableBuffer} {s : SymbolId}
    (found : w.index.symbols.get? b = some owner) (buffer : owner.asTableBuffer? = some t)
    (listed : t.field? f = some s) : fieldBuffer b f w = .ok s w := by
  unfold fieldBuffer
  rw [bind_of_ok (symbolAt_ok.2 ⟨found, rfl⟩), buffer]
  dsimp only
  rw [listed]
  rfl

/-- A field that a buffer has reached is reached in the same way again. -/
theorem fieldBuffer_again {s : SymbolId} (hok : fieldBuffer b f w = .ok s v) :
    fieldBuffer b f v = .ok s v ∧ v.blockStack = w.blockStack ∧
      v.index.blocks = w.index.blocks ∧ v.index.bufferScopes = w.index.bufferScopes := by
  have first := hok
  unfold fieldBuffer at hok
  obtain ⟨owner, w₁, howner, hrest⟩ := bind_ok.1 hok
  obtain ⟨found, rfl⟩ := symbolAt_ok.1 howner
  cases hb : owner.asTableBuffer? with
  | none =>
    rw [hb] at hrest
    cases hrest
  | some t =>
    rw [hb] at hrest
    dsimp only at hrest
    cases hold : t.field? f with
    | some s' =>
      rw [hold] at hrest
      cases hrest
      exact ⟨first, rfl, rfl, rfl⟩
    | none =>
      rw [hold] at hrest
      obtain ⟨field, w₂, hfield, hrest⟩ := bind_ok.1 hrest
      obtain ⟨-, rfl⟩ := fieldAt_ok.1 hfield
      obtain ⟨s', w₃, hnew, hrest⟩ := bind_ok.1 hrest
      obtain ⟨rfl, rfl⟩ := createSymbol_ok hnew
      obtain ⟨_, w₄, hupdate, hpure⟩ := bind_ok.1 hrest
      cases updateSymbol_ok hupdate
      cases hpure
      refine ⟨?_, rfl, rfl, rfl⟩
      have listed : ({ t with fields := t.fields ++ [(f, w.index.symbols.next)] } :
          TableBuffer).field? f = some w.index.symbols.next := by
        rw [TableBuffer.field?, Option.map_eq_none_iff] at hold
        simp [TableBuffer.field?, List.find?_append, hold]
      have owner' : (w.index.reached b owner t f field.name).symbols.get? b = some { owner with
          kind := .tableBuffer { t with fields := t.fields ++ [(f, w.index.symbols.next)] } } := by
        rw [UnitIndex.reached, Arena.get?_update, if_pos rfl, Arena.get?_push_of_get? found]
        rfl
      exact fieldBuffer_of_listed owner' rfl listed

/-- Looking up the name again, or another one of the same field of the same buffer, comes to the
same symbol and the same binding. -/
theorem lookupQualified?_reaches {before last : String} {l : FieldLookup} (n : NodeId)
    (hs : Sound w) (ok : w.index.SchemaTablesOk) (old : b.val < w.index.symbols.size)
    (bound : bindReference b w = .ok id v)
    (hok : lookupQualified? env before last binding w = .ok (some l) w')
    (reach : w'.index.asFieldBuffer? l.symbol = some ⟨b, f⟩) :
    l.bufferScope = (if binding then some id else none) ∧
      fieldBuffer b f (if binding then v else w) = .ok l.symbol w' := by
  cases lookupQualified?_end n hs hok with
  | field find has obtains =>
    obtain ⟨id', v', bound', rfl, hreach⟩ := obtains.reach
    rw [obtains.reached] at reach
    cases reach
    -- the buffer is there already, so that nothing has changed when it was found
    obtain ⟨rfl, -⟩ := findBuffer?_old hs ok find old
    rw [bound] at bound'
    cases bound'
    exact ⟨rfl, hreach⟩

/-- The search for a field among bound buffers comes to the binding that a reference uses. -/
theorem enclosingBufferScope?_of_boundField? {x : UnitIndex} {block : BlockId}
    {found : Text.Match FieldId} (h : boundField? x block name = some (b, found, id)) :
    x.enclosingBufferScope? block b = some id := by
  obtain ⟨earlier, id', later, hlist, hmatch, before⟩ := List.findSome?_eq_some_iff.1 h
  obtain ⟨binding, hbinding, hmap⟩ := Option.bind_eq_some_iff.1 hmatch
  obtain ⟨field, hfield, heq⟩ := Option.map_eq_some_iff.1 hmap
  cases heq
  rw [enclosingBufferScope?, hlist]
  refine List.find?_eq_some_iff_append.2 ⟨scopesBuffer_eq_true.2 ⟨binding, hbinding, rfl⟩,
    earlier, later, rfl, fun other hother => ?_⟩
  -- an earlier binding of the buffer would have had the field, too
  have unmatched := before other hother
  rw [Bool.not_eq_true', Bool.eq_false_iff]
  intro same
  obtain ⟨c, hc, hcb⟩ := scopesBuffer_eq_true.1 same
  rw [hc, Option.bind_some, hcb, hfield] at unmatched
  cases unmatched

theorem lookupBare?_reaches {l : FieldLookup} (env : Env) (n : NodeId) (hs : Sound w)
    (bound : bindReference b w = .ok id v) (hok : lookupBare? name binding w = .ok (some l) w')
    (reach : w'.index.asFieldBuffer? l.symbol = some ⟨b, f⟩) :
    l.bufferScope = (if binding then some id else none) ∧
      fieldBuffer b f (if binding then v else w) = .ok l.symbol w' := by
  cases lookupBare?_end env n hs hok with
  | plain found =>
    rw [(hs.plainSymbol? found).2.2] at reach
    cases reach
  | bound field hreach moves reached =>
    rw [reached] at reach
    cases reach
    have same := bindReference_of_found hs.standing.blocks
      (enclosingBufferScope?_of_boundField? field)
    rw [bound] at same
    cases same
    exact ⟨rfl, by rwa [ite_self]⟩
  | visible field obtains =>
    obtain ⟨id', v', bound', rfl, hreach⟩ := obtains.reach
    rw [obtains.reached] at reach
    cases reach
    rw [bound] at bound'
    cases bound'
    exact ⟨rfl, hreach⟩

theorem lookupField?_reaches {l : FieldLookup} (n : NodeId) (hs : Sound w)
    (ok : w.index.SchemaTablesOk) (old : b.val < w.index.symbols.size)
    (bound : bindReference b w = .ok id v)
    (hok : lookupField? env name binding w = .ok (some l) w')
    (reach : w'.index.asFieldBuffer? l.symbol = some ⟨b, f⟩) :
    l.bufferScope = (if binding then some id else none) ∧
      fieldBuffer b f (if binding then v else w) = .ok l.symbol w' := by
  unfold lookupField? at hok
  cases hsplit : Text.splitLast? name with
  | some p =>
    rw [hsplit] at hok
    exact lookupQualified?_reaches n hs ok old bound hok reach
  | none =>
    rw [hsplit] at hok
    exact lookupBare?_reaches env n hs bound hok reach

/-! ### One answer -/

/-- After a field has been reached, its buffer is bound as before. -/
theorem bindReference_of_reach {s : SymbolId} (standing : w.blockStack ≠ [])
    (found : w.index.enclosingBufferScope? w.block b = some id)
    (reach : fieldBuffer b f w = .ok s v) : bindReference b v = .ok id v := by
  obtain ⟨-, stack, blocks, bindings⟩ := fieldBuffer_again reach
  have block : v.block = w.block := by rw [Walk.block, Walk.frame, stack]; rfl
  refine bindReference_of_found (stack ▸ standing) ?_
  rw [enclosingBufferScope?_congr blocks bindings, block, found]

/-- Once a reference has been bound, the search around it finds the binding. -/
theorem bindReference_found (reached : Reached env notes w) (bound : bindReference b w = .ok id v) :
    v.index.BindingsInOrder ∧ v.block = w.block ∧ v.blockStack ≠ [] ∧
      v.index.enclosingBufferScope? v.block b = some id := by
  have standing := reached.sound.standing.blocks
  rcases (ends_bindReference_anew reached b).ok bound with ⟨rfl, found⟩ | anew
  · exact ⟨reached.bindingsInOrder, rfl, standing, found⟩
  · obtain ⟨near, i, outer, target, -, -, -, -, -, same⟩ := anew.made
    refine ⟨anew.bindingsInOrder reached, ?_, ?_, anew.found reached⟩
    · rw [same]
      rfl
    · rw [same]
      exact standing

/-- Two lookups that reach a field of one buffer from the same place come to the same. -/
theorem lookupField?_agree {name' : String} {l l' : FieldLookup} {w₁ w₂ w₃ : Walk}
    (reached : Reached env notes w) (isBuffer : w.index.IsBuffer b)
    (bound : bindReference b w = .ok id v)
    (hok : lookupField? env name binding w = .ok (some l) w₁)
    (reach : w₁.index.asFieldBuffer? l.symbol = some ⟨b, f⟩) (after : w₂ = w ∨ w₂ = w₁)
    (hok' : lookupField? env name' binding w₂ = .ok (some l') w₃)
    (reach' : w₃.index.asFieldBuffer? l'.symbol = some ⟨b, f⟩) :
    l'.symbol = l.symbol ∧ l'.bufferScope = l.bufferScope := by
  have hs := reached.sound
  have ok := Strides.schemaTables reached (sound_start env notes) (schemaTables_start env notes)
  have old := IsBuffer.lt_size isBuffer
  obtain ⟨scope, hreach⟩ := lookupField?_reaches ⟨0⟩ hs ok old bound hok reach
  rcases after with rfl | rfl
  · obtain ⟨scope', hreach'⟩ := lookupField?_reaches ⟨0⟩ hs ok old bound hok' reach'
    rw [hreach] at hreach'
    injection hreach' with same
    exact ⟨same.symm, scope'.trans scope.symm⟩
  · -- the buffer is bound already, and the field has been reached
    obtain ⟨moves, -⟩ := (ends_lookupField? env ⟨0⟩ hs name binding).ok hok
    have strides := Runs.strides moves.runs hs
    obtain ⟨id₁, v₁, bound₁, -⟩ := (ends_bindReference_anew (reached.trans strides) b).exists_ok
    obtain ⟨scope', hreach'⟩ := lookupField?_reaches ⟨0⟩ (moves.runs.sound hs)
      (strides.schemaTables hs ok) (moves.runs.extends.lt_symbols old) bound₁ hok' reach'
    have again := (fieldBuffer_again hreach).1
    cases binding with
    | true =>
      obtain ⟨-, -, standing, found⟩ := bindReference_found reached bound
      rw [bindReference_of_reach standing found hreach] at bound₁
      cases bound₁
      rw [if_pos rfl, again] at hreach'
      injection hreach' with same
      exact ⟨same.symm, scope'.trans scope.symm⟩
    | false =>
      rw [if_neg Bool.false_ne_true, again] at hreach'
      injection hreach' with same
      exact ⟨same.symm, scope'.trans scope.symm⟩

/-- Wherever a walk stands, a reference to a buffer uses the first binding of the buffer on the
nearest block that has any; if none has, it makes one, and the next reference uses it. A field of
the buffer that is looked up leads to this binding under whatever name, and to the same symbol. -/
theorem bindReference_innermost (reached : Reached env notes w) (isBuffer : w.index.IsBuffer b) :
    ∃ id v, bindReference b w = .ok id v ∧ bindReference b v = .ok id v ∧
      v.index.Innermost w.block b id ∧ (v = w ∧ w.Binds id b ∨ w.BindsAnew b id v) ∧
      (∀ name found id', boundField? w.index w.block name = some (b, found, id') →
        id' = id ∧ v = w) ∧
      ∀ binding name l w₁ f, lookupField? env name binding w = .ok (some l) w₁ →
        w₁.index.asFieldBuffer? l.symbol = some ⟨b, f⟩ →
        l.bufferScope = (if binding then some id else none) ∧
        ∀ name' l' w₂ w₃, w₂ = w ∨ w₂ = w₁ →
          lookupField? env name' binding w₂ = .ok (some l') w₃ →
          w₃.index.asFieldBuffer? l'.symbol = some ⟨b, f⟩ →
          l'.symbol = l.symbol ∧ l'.bufferScope = l.bufferScope := by
  have hs := reached.sound
  have ok := Strides.schemaTables reached (sound_start env notes) (schemaTables_start env notes)
  obtain ⟨id, v, bound, outcome⟩ := (ends_bindReference_anew reached b).exists_ok
  obtain ⟨ordered, block, standing, found⟩ := bindReference_found reached bound
  refine ⟨id, v, bound, bindReference_of_found standing found, ?_, ?_, ?_, ?_⟩
  · exact block ▸ ordered.innermost found
  · refine outcome.imp_left fun ⟨same, hfind⟩ => ⟨same, ?_⟩
    exact hs.binds_of_mem (List.mem_of_find?_eq_some hfind) (List.find?_some hfind)
  · intro name match' id' hbound
    have same := bindReference_of_found hs.standing.blocks
      (enclosingBufferScope?_of_boundField? hbound)
    rw [bound] at same
    cases same
    exact ⟨rfl, rfl⟩
  · intro binding name l w₁ f hlook reach
    refine ⟨(lookupField?_reaches ⟨0⟩ hs ok (IsBuffer.lt_size isBuffer) bound hlook reach).1, ?_⟩
    intro name' l' w₂ w₃ after hlook' reach'
    exact lookupField?_agree reached isBuffer bound hlook reach after hlook' reach'

/-- A temp-table, and a field of it that is displayed in a DO block. -/
def displayedField : Env where
  tree := .ofRows [
    (0, .defineTempTable, ""), (1, .identifier, "tt"), (1, .tableField, ""), (3, .identifier, "f"),
    (0, .doBlock, ""), (5, .displayStatement, ""), (6, .field, "f")]
  catalog := {}

/-- A field of the buffer is found in state `w`, and `p` holds then. -/
def findsField (env : Env) (name : String) (b : SymbolId) (p : Walk → Bool) (w : Walk) : Bool :=
  match lookupField? env name true w with
  | .ok (some l) v => v.index.asFieldBuffer? l.symbol = some ⟨b, ⟨0⟩⟩ && p v
  | _ => false

theorem findsField_eq_true {p : Walk → Bool} (h : findsField env name b p w = true) :
    ∃ l v, lookupField? env name true w = .ok (some l) v ∧
      v.index.asFieldBuffer? l.symbol = some ⟨b, ⟨0⟩⟩ ∧ p v = true := by
  unfold findsField at h
  split at h
  · rw [Bool.and_eq_true, decide_eq_true_eq] at h
    exact ⟨_, _, ‹_›, h⟩
  · cases h

/-- In the sample, the buffer is bound to the block of the unit when the field is met; its name with
the table leads to the same then. -/
theorem bindReference_innermost_displayed :
    ∃ w v l l' w₁ w₂, Reached displayedField (.blank 8) w ∧ w.index.IsBuffer ⟨1⟩ ∧
      bindReference ⟨1⟩ w = .ok ⟨0⟩ v ∧ bindReference ⟨1⟩ v = .ok ⟨0⟩ v ∧
      v.index.Innermost w.block ⟨1⟩ ⟨0⟩ ∧ w.BindsAnew ⟨1⟩ ⟨0⟩ v ∧
      lookupField? displayedField "f" true w = .ok (some l) w₁ ∧
      lookupField? displayedField "tt.f" true w₁ = .ok (some l') w₂ ∧
      l'.symbol = l.symbol ∧ l'.bufferScope = some ⟨0⟩ := by
  have entered : (unitEntries displayedField (.blank 8)).any (fun e => e.1 = ⟨7⟩ &&
      e.2.index.bufferTable? ⟨1⟩ = some ⟨0⟩ && e.2.index.bufferScopes.size = 0 &&
      findsField displayedField "f" ⟨1⟩ (findsField displayedField "tt.f" ⟨1⟩ fun _ => true) e.2) =
        true := by
    decide +kernel
  obtain ⟨⟨n, w⟩, he, hw⟩ := List.any_eq_true.1 entered
  simp only [Bool.and_eq_true, decide_eq_true_eq] at hw
  obtain ⟨⟨⟨rfl, ht⟩, empty⟩, finds⟩ := hw
  obtain ⟨l, w₁, hlook, reach, again⟩ := findsField_eq_true finds
  obtain ⟨l', w₂, hlook', reach', -⟩ := findsField_eq_true again
  have reached := reached_of_mem_unitEntries he
  obtain ⟨id, v, bound, rebound, innermost, outcome, -, looks⟩ :=
    bindReference_innermost reached ⟨_, ht⟩
  obtain ⟨scope, same⟩ := looks true "f" l w₁ ⟨0⟩ hlook reach
  obtain ⟨symbol, scope'⟩ := same "tt.f" l' w₁ w₂ (.inr rfl) hlook' reach'
  have anew : w.BindsAnew ⟨1⟩ id v := by
    refine outcome.resolve_left fun ⟨_, binding, hbinding, _⟩ => ?_
    have lt : id.val < w.index.bufferScopes.size := Arena.lt_size_of_get? hbinding
    exact absurd lt (empty ▸ Nat.not_lt_zero _)
  obtain rfl : id = ⟨0⟩ := by rw [anew.fresh, Arena.next, empty]
  exact ⟨w, v, l, l', w₁, w₂, reached, ⟨_, ht⟩, bound, rebound, innermost, anew, hlook, hlook',
    symbol, scope'.trans scope⟩

end Walk

end AblResolve
