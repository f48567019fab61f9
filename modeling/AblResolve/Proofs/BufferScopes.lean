import AblResolve.Proofs.Bindings
import AblResolve.Proofs.Records
/-!
The bindings that stand on the nodes of a tree. They stand on records and fields only, and each is
one of the buffer that the node stands for, made at the block that was current there or at one
around it. A record has one if the way it is used binds its buffer, or if it is named by a DO FOR
or REPEAT FOR; the latter is made after the record has been visited.
-/
namespace AblResolve

namespace Walk

open UnitIndex ParseTree

/-- The buffer that a record stands for, or that what a field stands for hangs off. -/
def bufferOf (t : ParseTree) (x : UnitIndex) (m : NodeId) (a : Annotation) : Option SymbolId :=
  match t.kind m with
  | .record => a.symbol
  | .field => (a.symbol.bind x.asFieldBuffer?).map (·.buffer)
  | _ => none

/-- The binding `id` on node `m`, which was entered in state `v`: it is one of the buffer that the
node stands for, to the block that was current then or to one around it. -/
def BoundAt (t : ParseTree) (w : Walk) (m : NodeId) (v : Walk) (id : BufferScopeId) : Prop :=
  ∃ binding, w.index.bufferScopes.get? id = some binding ∧
    bufferOf t w.index m (w.notes.get m) = some binding.buffer ∧
    v.block.val < w.index.blocks.size ∧ binding.block ∈ w.index.blockChain v.block

section BoundAt

variable {t : ParseTree} {x y : UnitIndex} {w w' v : Walk} {m : NodeId} {id : BufferScopeId}

theorem kind_of_bufferOf {a : Annotation} {b : SymbolId} (h : bufferOf t x m a = some b) :
    t.kind m = .record ∨ t.kind m = .field := by
  unfold bufferOf at h
  split at h
  · exact .inl ‹_›
  · exact .inr ‹_›
  · cases h

theorem bufferOf_extends {a a' : Annotation} {b : SymbolId} (ext : x.Extends y)
    (same : a'.symbol = a.symbol) (h : bufferOf t x m a = some b) :
    bufferOf t y m a' = some b := by
  unfold bufferOf at h ⊢
  rw [same]
  split at h
  · exact h
  · obtain ⟨f, hf, rfl⟩ := Option.map_eq_some_iff.1 h
    obtain ⟨s, hs, hfs⟩ := Option.bind_eq_some_iff.1 hf
    rw [hs, Option.bind_some, ext.asFieldBuffer? hfs]
    rfl
  · cases h

theorem BoundAt.later (h : BoundAt t w m v id) (ext : w.index.Extends w'.index)
    (same : t.kind m = .record ∨ t.kind m = .field →
      (w'.notes.get m).symbol = (w.notes.get m).symbol) : BoundAt t w' m v id := by
  obtain ⟨binding, hbinding, hbuffer, hlt, hchain⟩ := h
  refine ⟨binding, ext.bufferScope hbinding,
    bufferOf_extends ext (same (kind_of_bufferOf hbuffer)) hbuffer, ext.blocks.lt_size hlt, ?_⟩
  rwa [ext.blockChain _ hlt]

/-- What is bound to a block around can be written on the node. -/
theorem Binds.boundAt {b : SymbolId} (h : w.Binds id b) (hs : Sound w)
    (ext : w.index.Extends w'.index) (block : v.block = w.block)
    (buffer : bufferOf t w'.index m (w'.notes.get m) = some b) : BoundAt t w' m v id := by
  obtain ⟨binding, hbinding, rfl, hchain⟩ := h
  obtain ⟨current, hcurrent, -⟩ := hs.current
  have hlt := Arena.lt_size_of_get? hcurrent
  refine ⟨binding, ext.bufferScope hbinding, buffer, ?_, ?_⟩
  · rw [block]
    exact ext.blocks.lt_size hlt
  · rwa [block, ext.blockChain _ hlt]

end BoundAt

/-! ### Entering a node -/

section Enter

variable {env : Env} {n m : NodeId} {w w' : Walk} {id : BufferScopeId}

theorem Runs.bufferScope (h : Runs env n w w') (m : NodeId) :
    (w'.notes.get m).bufferScope = (w.notes.get m).bufferScope := by
  by_cases hm : m = n
  · subst hm
    refine h.notes (P := fun a b => b.bufferScope = a.bufferScope) (fun _ => rfl)
      (fun _ _ _ hab hbc => hbc.trans hab) ?_
    rintro v a b - mark
    cases mark <;> rfl
  · rw [h.apart hm]

/-- Entering a node binds nothing for another one. -/
theorem Enters.bufferScope (h : Enters env n w w') (hne : m ≠ n) :
    (w'.notes.get m).bufferScope = (w.notes.get m).bufferScope := by
  cases h with
  | plain runs => exact Runs.bufferScope runs m
  | refer moves expects refer =>
    rw [← Runs.bufferScope moves.runs m]
    cases refer with
    | member kind child identifier sees attached plain =>
      rename_i c q s
      by_cases hc : c = m
      · subst hc
        rw [Annotations.get_update_self]
      · rw [Annotations.get_update_of_ne hc]
    | _ => rw [Annotations.get_update_of_ne hne.symm]
  | miss moves miss =>
    rw [miss.notes]
    exact Runs.bufferScope moves.runs m

/-- A node on which no binding stands gets one by a reference to its buffer. -/
theorem Enters.boundAt (h : Enters env n w w') (hs : Sound w)
    (none : (w.notes.get n).bufferScope = none) (some : (w'.notes.get n).bufferScope = some id) :
    BoundAt env.tree w' n w id := by
  have unbound : ∀ {v}, Runs env n w v → (v.notes.get n).bufferScope ≠ Option.some id := by
    intro v runs
    simp [Runs.bufferScope runs, none]
  cases h with
  | plain runs => exact absurd some (unbound runs)
  | refer moves expects refer =>
    have hsv := moves.runs.sound hs
    have ext := refer.extends
    have block := moves.block.symm
    cases refer with
    | record bufferScope abbreviated kind isBuffer found sees attached binds bound =>
      rw [Annotations.get_update_self] at some
      refine (bound id some).boundAt hsv ext block ?_
      simp [bufferOf, kind]
    | field store bufferScope unqualified abbreviated kind leads =>
      rw [Annotations.get_update_self] at some
      obtain ⟨f, hf, binds⟩ := leads.bound id some
      refine binds.boundAt hsv ext block ?_
      simp [bufferOf, kind, ext.asFieldBuffer? hf]
    | widget =>
      rw [Annotations.get_update_self] at some
      exact absurd some (unbound moves.runs)
    | member kind child =>
      rw [Annotations.get_update_of_ne (ne_of_mem_children child)] at some
      exact absurd some (unbound moves.runs)
  | miss moves miss =>
    rw [miss.notes] at some
    exact absurd some (unbound moves.runs)

/-- A record gets a binding when it is entered if it is used in a way that binds its buffer. -/
theorem enter_bufferScope {plan : Plan env.tree n} (hs : Sound w)
    (hkind : env.tree.kind n = .record) (henter : enter env n w = .ok plan w') :
    (w'.notes.get n).bufferScope.isSome ↔ w.qualifierAt n ∈ bindingUses := by
  obtain ⟨-, v, moves, refer⟩ := ((ends_enter env n hs).ok henter).record hkind
  cases refer with
  | record bufferScope abbreviated kind isBuffer found sees attached binds =>
    rw [Annotations.get_update_self]
    exact binds

end Enter

/-! ### The whole walk -/

/-- The bindings that stand on the nodes when the nodes in `es` have been entered and the records in
`rs` have been bound by the lists that they stand in. -/
structure Placed (env : Env) (es : List (NodeId × Walk)) (rs : List NodeId) (w : Walk) : Prop where
  bound : ∀ m id, (w.notes.get m).bufferScope = some id →
    ∃ v, (m, v) ∈ es ∧ BoundAt env.tree w m v id
  records : ∀ r v, (r, v) ∈ es → env.tree.kind r = .record →
    ((w.notes.get r).bufferScope.isSome ↔ v.qualifierAt r ∈ bindingUses ∨ r ∈ rs)
  listed : ∀ r ∈ rs, r ∈ es.map (·.1) ∧
    ∃ p, env.tree.parent? r = some p ∧ env.tree.kind p = .blockFor

section Trail

variable {env : Env} {n : NodeId} {w₀ w w' : Walk} {es : List (NodeId × Walk)} {rs : List NodeId}

/-- What neither binds anything nor says what records and fields stand for. -/
theorem Placed.later (h : Placed env es rs w) (ext : w.index.Extends w'.index)
    (bufferScope : ∀ m, (w'.notes.get m).bufferScope = (w.notes.get m).bufferScope)
    (symbol : ∀ m, env.tree.kind m = .record ∨ env.tree.kind m = .field →
      (w'.notes.get m).symbol = (w.notes.get m).symbol) : Placed env es rs w' where
  bound m id hid := by
    rw [bufferScope m] at hid
    obtain ⟨v, he, boundAt⟩ := h.bound m id hid
    exact ⟨v, he, boundAt.later ext (symbol m)⟩
  records r v he hkind := by
    rw [bufferScope r]
    exact h.records r v he hkind
  listed := h.listed

theorem Placed.run (h : Placed env es rs w) (runs : Runs env n w w')
    (field : env.tree.kind n = .field → w'.notes = w.notes) : Placed env es rs w' := by
  refine h.later runs.extends (Runs.bufferScope runs) fun m hm => ?_
  by_cases hmn : m = n
  · subst hmn
    rcases hm with hrecord | hfield
    · have hname : (env.tree.kind m).isName = true := by simp [hrecord]
      exact congrArg (·.1) (runs.meaning (.inr hname))
    · rw [field hfield]
  · rw [runs.apart hmn]

theorem Placed.enter {plan : Plan env.tree n} (h : Placed env es rs w) (hs : Sound w)
    (new : n ∉ es.map (·.1)) (henter : enter env n w = .ok plan w') :
    Placed env (es ++ [(n, w)]) rs w' := by
  have enters := ((ends_enter env n hs).ok henter).enters
  have old : ∀ {m v}, (m, v) ∈ es → m ≠ n := by
    rintro m v he rfl
    exact new (List.mem_map_of_mem he)
  constructor
  · intro m id hid
    by_cases hmn : m = n
    · subst hmn
      have hnone : (w.notes.get m).bufferScope = none := by
        refine Option.eq_none_iff_forall_ne_some.2 fun j hj => ?_
        obtain ⟨v, he, -⟩ := h.bound m j hj
        exact old he rfl
      exact ⟨w, by simp, enters.boundAt hs hnone hid⟩
    · rw [enters.bufferScope hmn] at hid
      obtain ⟨v, he, boundAt⟩ := h.bound m id hid
      refine ⟨v, List.mem_append_left _ he, boundAt.later enters.extends fun hm => ?_⟩
      have apart : env.tree.kind m ≠ .identifier := by rcases hm with hm | hm <;> simp [hm]
      exact congrArg Annotation.symbol (enters.kept hmn apart)
  · intro r v he hkind
    rcases List.mem_append.1 he with he | he
    · rw [enters.bufferScope (old he)]
      exact h.records r v he hkind
    · cases List.mem_singleton.1 he
      have unlisted : n ∉ rs := fun hn => new (h.listed n hn).1
      rw [enter_bufferScope hs hkind henter, or_iff_left unlisted]
  · intro r hr
    obtain ⟨hmem, hparent⟩ := h.listed r hr
    exact ⟨by simp [hmem], hparent⟩

theorem Placed.bind {r : NodeId} {b : SymbolId} {v : Walk} (h : Placed env es rs w) (hs : Sound w)
    (entry : (r, v) ∈ es) (block : w.block = v.block) (binds : BindsStrongly env n w r b) :
    Placed env es (rs ++ [r]) (w.boundStrongly r b) := by
  have ext : w.index.Extends (w.boundStrongly r b).index := binds.change.extends
  have apart : ∀ {m}, m ≠ r → (w.boundStrongly r b).notes.get m = w.notes.get m :=
    fun hm => Annotations.get_update_of_ne hm.symm _ _
  constructor
  · intro m id hid
    by_cases hmr : m = r
    · subst hmr
      have hnew : w.index.bufferScopes.next = id := by simpa [boundStrongly] using hid
      have here : Binds { w with index := w.index.bound w.block b .strong }
          w.index.bufferScopes.next b :=
        binds_bound hs binds.change.extends (mem_blockChain_self _ _)
      have moved : Sound { w with index := w.index.bound w.block b .strong } :=
        (Move.index (binds.change.mono False.elim False.elim) : Move env n w _).sound hs
      refine ⟨v, entry, hnew ▸ here.boundAt moved (.refl _) block.symm ?_⟩
      simp [bufferOf, binds.record, boundStrongly, binds.symbol]
    · rw [apart hmr] at hid
      obtain ⟨v', he, boundAt⟩ := h.bound m id hid
      exact ⟨v', he, boundAt.later ext fun _ => by rw [apart hmr]⟩
  · intro r' v' he hkind
    by_cases hr : r' = r
    · subst hr
      simp [boundStrongly]
    · rw [apart hr, h.records r' v' he hkind]
      simp [hr]
  · intro r' hr'
    rcases List.mem_append.1 hr' with hr' | hr'
    · exact h.listed r' hr'
    · cases List.mem_singleton.1 hr'
      exact ⟨List.mem_map_of_mem entry, n, parent?_of_mem_children binds.child, binds.kind⟩

theorem Trail.placed (trail : Trail env w₀ es rs w) (hs : Sound w₀) (nodup : (es.map (·.1)).Nodup)
    (clean : ∀ m, (w₀.notes.get m).bufferScope = none) : Placed env es rs w := by
  induction trail with
  | start => exact ⟨by simp [clean], by simp, by simp⟩
  | enter before entered ih =>
    obtain ⟨nodup, new⟩ := nodup_concat nodup
    exact (ih nodup).enter (before.sound hs) new entered
  | tell _ tells ih =>
    obtain ⟨qualifiers, hints, rfl⟩ := tells.eq
    exact (ih nodup).later (.refl _) (fun _ => rfl) fun _ _ => rfl
  | run _ runs field ih => exact (ih nodup).run runs field
  | use q _ _ ih => exact (ih nodup).later (extends_counted _ _ _) (fun _ => rfl) fun _ _ => rfl
  | bind before entry block binds ih => exact (ih nodup).bind (before.sound hs) entry block binds

/-- A record has a binding if it is used in a way that binds its buffer, or if it stands in a list
of buffers. -/
theorem Placed.isSome_bufferScope_iff {r : NodeId} {v : Walk} (h : Placed env es rs w)
    (listed : Listed env es rs) (he : (r, v) ∈ es) (hkind : env.tree.kind r = .record) :
    (w.notes.get r).bufferScope.isSome ↔ v.qualifierAt r ∈ bindingUses ∨
      ∃ p, env.tree.parent? r = some p ∧ env.tree.kind p = .blockFor := by
  rw [h.records r v he hkind]
  constructor
  · exact Or.imp_right fun hr => (h.listed r hr).2
  · rintro (hq | ⟨p, hp, hlist⟩)
    · exact .inl hq
    · rcases listed r v p he hkind hp hlist with hr | href
      · exact .inr hr
      · exact .inl (by simp [href, bindingUses])

theorem bufferScope_start (env : Env) (size : Nat) (m : NodeId) :
    ((start env (.blank size)).notes.get m).bufferScope = none := by
  rw [start, Annotations.get_update]
  split <;> simp

end Trail

end Walk

namespace CompilationUnit

open UnitIndex Walk

/-- Bindings are coherent. Each is listed once, by its own block. They stand on records and fields
that have been met, are bindings of their buffers, and were made at the block that was current there
or at one around it. A record has one if it is used in a way that binds its buffer, or if a list of
buffers names it. References are bound only to blocks that take them, and a DO block takes them only
if it names a buffer of its own. Besides those made by name, a block has at most one binding of each
buffer. -/
theorem analyze_ofTree_bufferScopes (catalog : Catalog) (types : TypeRegistry) (options : Options)
    (tree : ParseTree) {index : UnitIndex} {u : CompilationUnit}
    (hok : (ofTree tree).analyze catalog types options = (.ok index, u)) :
    let env : Env := { tree, catalog, types, options }
    let entered := unitEntries env (.blank tree.size)
    (∀ id binding, index.bufferScopes.get? id = some binding →
      ∀ i, (index.bufferScopesOf i).count id = if i = binding.block then 1 else 0) ∧
    (∀ m id, (u.notes.get m).bufferScope = some id → ∃ v binding, (m, v) ∈ entered ∧
      index.bufferScopes.get? id = some binding ∧
      bufferOf tree index m (u.notes.get m) = some binding.buffer ∧
      binding.block ∈ index.blockChain v.block) ∧
    (∀ r v, (r, v) ∈ entered → tree.kind r = .record → ((u.notes.get r).bufferScope.isSome ↔
      (∃ q ∈ bindingUses, (u.notes.get r).qualifier = some q) ∨
        ∃ p, tree.parent? r = some p ∧ tree.kind p = .blockFor)) ∧
    (∀ id binding, index.bufferScopes.get? id = some binding → binding.strength = .reference →
      ∃ block, index.blocks.get? binding.block = some block ∧ block.scopesRecords = true) ∧
    (∀ i block, index.blocks.get? i = some block → block.kind = .do →
      (block.scopesRecords = true ↔ ∃ id binding, index.bufferScopes.get? id = some binding ∧
        binding.block = i ∧ binding.strength = .strong)) ∧
    (∀ id id' b b', index.bufferScopes.get? id = some b → index.bufferScopes.get? id' = some b' →
      b.block = b'.block → b.buffer = b'.buffer → b.strength ≠ .strong → b'.strength ≠ .strong →
      id = id') := by
  intro env entered
  obtain ⟨w, hw, rfl, rfl⟩ := analyze_ok catalog types options hok
  obtain ⟨rs, trail, hlisted⟩ := visitUnit_trail hw
  have placed := trail.placed (sound_start env _) (unitEntries_nodup _ _) (bufferScope_start env _)
  have coherent := (trail.sound (sound_start env _)).coherent
  have bindings := trail.bindings (sound_start env _) (bindings_start env _)
  refine ⟨fun id binding hid i => bindings.count coherent hid i, ?_, ?_,
    fun id binding hid => bindings.takes hid,
    fun i block hblock hkind => bindings.do_takes_iff coherent hblock hkind,
    fun id id' b b' hb hb' => bindings.alone hb hb'⟩
  · intro m id hid
    obtain ⟨v, he, binding, hbinding, hbuffer, -, hchain⟩ := placed.bound m id hid
    exact ⟨v, binding, he, hbinding, hbuffer, hchain⟩
  · intro r v he hkind
    obtain ⟨-, -, -, -, -, -, hqualifier, -⟩ := (visitUnit_settles hw).describesRecord he
      (trail.entered _ he) (sound_of_mem_unitEntries he) hkind
    have used : (∃ q ∈ bindingUses, (w.notes.get r).qualifier = some q) ↔
        v.qualifierAt r ∈ bindingUses := by
      simp [hqualifier]
    exact (placed.isSome_bufferScope_iff hlisted he hkind).trans (or_congr used.symm Iff.rfl)

/-- A temp-table of which a DO block names a buffer of its own; a record of it is asked for there,
and its field is displayed. Another record is asked for after the block. -/
def bindingSample : ParseTree := .ofRows [
  (0, .defineTempTable, ""), (1, .identifier, "tt"), (1, .tableField, ""), (3, .identifier, "f"),
  (0, .doBlock, ""), (5, .blockFor, ""), (6, .record, "tt"), (5, .recordFunction, ""),
  (8, .record, "tt"), (5, .displayStatement, ""), (10, .field, "f"), (0, .recordFunction, ""),
  (12, .record, "tt")]

/-- In the sample, the records and the field of the block share one binding, and the record after
the block has one of its own. -/
theorem analyze_ofTree_bufferScopes_sample :
    ∃ index u, (ofTree bindingSample).analyze {} {} {} = (.ok index, u) ∧
      (u.notes.get ⟨7⟩).bufferScope = some ⟨0⟩ ∧ (u.notes.get ⟨9⟩).bufferScope = some ⟨0⟩ ∧
      (u.notes.get ⟨11⟩).bufferScope = some ⟨0⟩ ∧ (u.notes.get ⟨13⟩).bufferScope = some ⟨1⟩ ∧
      (∀ i, (index.bufferScopesOf i).count ⟨0⟩ = if i = ⟨1⟩ then 1 else 0) ∧
      (∀ i, (index.bufferScopesOf i).count ⟨1⟩ = if i = ⟨0⟩ then 1 else 0) ∧
      ∃ binding, index.bufferScopes.get? ⟨0⟩ = some binding ∧
        bufferOf bindingSample index ⟨11⟩ (u.notes.get ⟨11⟩) = some binding.buffer := by
  obtain ⟨index, hok, hstrong, hfree⟩ := exists_analyze_ok_and (u := ofTree bindingSample) {} {} {}
    (P := fun x => x.bufferScopes.get? ⟨0⟩ = some ⟨⟨1⟩, ⟨1⟩, .strong⟩ ∧
      x.bufferScopes.get? ⟨1⟩ = some ⟨⟨0⟩, ⟨1⟩, .reference⟩) (by decide +kernel)
  obtain ⟨listed, written, -⟩ := analyze_ofTree_bufferScopes {} {} {} bindingSample hok
  have hfield : (((ofTree bindingSample).analyze {} {} {}).2.notes.get ⟨11⟩).bufferScope =
      some ⟨0⟩ := by
    decide +kernel
  obtain ⟨v, binding, -, hbinding, hbuffer, -⟩ := written ⟨11⟩ ⟨0⟩ hfield
  exact ⟨index, _, hok, by decide +kernel, by decide +kernel, hfield, by decide +kernel,
    listed ⟨0⟩ _ hstrong, listed ⟨1⟩ _ hfree, binding, hbinding, hbuffer⟩

end CompilationUnit

end AblResolve
