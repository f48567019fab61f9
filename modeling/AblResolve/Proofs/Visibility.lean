import AblResolve.Proofs.Settled
/-!
What references can lead to. Wherever a record, a widget, a member of the class or a field without
a table hint is found to stand for a symbol, the scope that owns the symbol is the current one or
one around it. Fields are also found through the buffers that are bound to the blocks around the
current one; these are in sight since the scopes of those blocks are scopes around the current one.
-/
namespace AblResolve

namespace UnitIndex

/-- The scope that owns a symbol; a field belongs to its buffer. -/
def holder? (x : UnitIndex) (s : SymbolId) : Option ScopeId :=
  match x.asFieldBuffer? s with
  | some f => x.owner? f.buffer
  | none => x.owner? s

/-- A field is in sight if and only if its buffer is. -/
theorem Coherent.holder? {x : UnitIndex} (h : x.Coherent) (s : SymbolId) :
    x.holder? s = x.owner? s := by
  unfold UnitIndex.holder?
  split
  · rename_i f hf
    obtain ⟨symbol, hsymbol, hkind⟩ := asFieldBuffer?_eq_some.1 hf
    have ok := (h.symbols hsymbol).kind
    rw [hkind] at ok
    rw [ok.2.1, UnitIndex.owner?, hsymbol]
    rfl
  · rfl

end UnitIndex

namespace Walk

open UnitIndex ParseTree

/-- Entering node `n` in state `w` looks up the name on node `k`, and no table is given in which it
has to be. -/
inductive LooksUp (env : Env) (n : NodeId) (w : Walk) : NodeId → Prop
  | record (kind : env.tree.kind n = .record) : LooksUp env n w n
  | widget (kind : env.tree.kind n = .widgetName) : LooksUp env n w n
  | member {k : NodeId} (kind : env.tree.kind n = .widgetAttribute)
      (child : k ∈ env.tree.children n) (identifier : env.tree.kind k = .identifier) :
      LooksUp env n w k
  | field (kind : env.tree.kind n = .field) (unhinted : w.hinted? (w.hintAt n) = none) :
      LooksUp env n w n

section Enter

variable {env : Env} {n k : NodeId} {w w' : Walk}

/-- A variable that is defined in a field is in sight there. -/
theorem Moves.field_symbol (moves : Moves env n w w') (hs : Sound w)
    (hkind : env.tree.kind n = .field) {s : SymbolId} (h : (w'.notes.get n).symbol = some s) :
    (w.notes.get n).symbol = some s ∨ w'.index.Sees w'.scope s := by
  induction moves generalizing s with
  | refl => exact .inl h
  | tail before move ih =>
    rename_i v v'
    have kept : (v.notes.get n).symbol = some s →
        (w.notes.get n).symbol = some s ∨ v'.index.Sees v'.scope s := by
      intro hv
      have single : Moves env n v v' := .single move
      exact (ih hv).imp_right (Moves.sees env n single (Moves.runs before |>.sound hs))
    cases move with
    | mark mark =>
      rw [Annotations.get_update_self] at h
      obtain ⟨-, -, hsame | ⟨s', hs', sees⟩⟩ := mark.field hkind
      · exact kept (hsame ▸ h)
      · rw [h] at hs'
        cases hs'
        exact .inr sees
    | _ => exact kept h

/-- What a reference writes on a node is in sight, unless the field has to be in a given table. -/
theorem Refer.sees {ref : Reference} {s : SymbolId} (h : Refer env n w ref w') (hs : Sound w)
    (hk : (w'.notes.get k).symbol = some s) :
    (w.notes.get k).symbol = some s ∨ w'.index.Sees w.scope s ∨
      ∃ q hint b, ref = .field q hint ∧ env.tree.kind n = .field ∧ w.hinted? hint = some b := by
  have later : w.index.Sees w.scope s → w'.index.Sees w.scope s := fun sees =>
    sees.extends h.extends hs.coherent.scopeTree hs.scope_lt
  obtain ⟨k', f, s', hnotes, hf, -, -, hfound⟩ := h.writes
  rw [hnotes] at hk
  rcases symbol_update hk with ⟨rfl, hnew⟩ | ⟨-, hold⟩
  · rw [hf] at hnew
    cases hnew
    rcases hfound with sees | ⟨q, hint, hq, hkind, reaches⟩
    · exact .inr (.inl (later sees))
    · unfold Reaches at reaches
      cases hb : w.hinted? hint with
      | none =>
        rw [hb] at reaches
        exact .inr (.inl (later reaches))
      | some b => exact .inr (.inr ⟨q, hint, b, hq, hkind, hb⟩)
  · exact .inl hold

/-- Entering a field whose table is not given leads to what is in sight. -/
theorem enterField_sees {plan : Plan env.tree n} {s : SymbolId} (hs : Sound w)
    (hkind : env.tree.kind n = .field) (unhinted : w.hinted? (w.hintAt n) = none)
    (hnone : (w.notes.get n).symbol = none) (henter : enter env n w = .ok plan w')
    (hsymbol : (w'.notes.get n).symbol = some s) : w'.index.Sees w.scope s := by
  have inline : ∀ {v}, Moves env n w v → (v.notes.get n).symbol = some s →
      v.index.Sees w.scope s := by
    intro v moves hv
    rcases moves.field_symbol hs hkind hv with h | sees
    · rw [hnone] at h
      cases h
    · rwa [moves.scope] at sees
  rw [enter_field hkind] at henter
  obtain ⟨-, -, outcome, resolves⟩ := (ends_enterField_resolves env n hs hkind).ok henter
  cases resolves with
  | input keyword moves | tolerated keyword lacks tolerant moves => exact inline moves hsymbol
  | found keyword moves refer =>
    rename_i v
    have hsv := moves.runs.sound hs
    have hscope := moves.scope
    rcases refer.sees hsv hsymbol with h | sees | ⟨q, hint, b, hq, -, hb⟩
    · exact (inline moves h).extends refer.extends hsv.coherent.scopeTree (hscope ▸ hsv.scope_lt)
    · rwa [hscope] at sees
    · cases hq
      rw [Moves.hinted? env n moves, unhinted] at hb
      cases hb
  | missing keyword moves miss =>
    rename_i v
    have hsv := moves.runs.sound hs
    have hscope := moves.scope
    rw [miss.notes] at hsymbol
    exact (inline moves hsymbol).extends miss.extends hsv.coherent.scopeTree
      (hscope ▸ hsv.scope_lt)

theorem Runs.symbol_ne {s : SymbolId} (h : Runs env n w w')
    (hk : k ≠ n ∨ (env.tree.kind k).isName) (hnone : (w.notes.get k).symbol = none) :
    (w'.notes.get k).symbol ≠ some s := by
  have hsame : (w'.notes.get k).symbol = (w.notes.get k).symbol := congrArg (·.1) (h.meaning hk)
  simp [hsame, hnone]

/-- Entering any other node leads to what is in sight. -/
theorem Enters.sees {s : SymbolId} (h : Enters env n w w') (hs : Sound w)
    (hfield : env.tree.kind n ≠ .field) (hk : k ≠ n ∨ (env.tree.kind k).isName)
    (hnone : (w.notes.get k).symbol = none) (hsymbol : (w'.notes.get k).symbol = some s) :
    w'.index.Sees w.scope s := by
  cases h with
  | plain runs => exact absurd hsymbol (runs.symbol_ne hk hnone)
  | refer moves expects refer =>
    rcases refer.sees (moves.runs.sound hs) hsymbol with h | sees | ⟨-, -, -, -, hkind, -⟩
    · exact absurd h (moves.runs.symbol_ne hk hnone)
    · rwa [moves.scope] at sees
    · exact absurd hkind hfield
  | miss moves miss =>
    rw [miss.notes] at hsymbol
    exact absurd hsymbol (moves.runs.symbol_ne hk hnone)

theorem enter_sees {plan : Plan env.tree n} {s : SymbolId} (hs : Sound w) (fresh : Fresh env n w)
    (henter : enter env n w = .ok plan w') (looks : LooksUp env n w k)
    (hsymbol : (w'.notes.get k).symbol = some s) : w'.index.Sees w.scope s := by
  have enters := ((ends_enter env n hs).ok henter).enters
  cases looks with
  | record kind | widget kind =>
    refine enters.sees hs (by simp [kind]) (.inr (by simp [kind])) ?_ hsymbol
    exact fresh.symbol (.refl n) (.inr (by simp [kind]))
  | member kind child identifier =>
    have hne := ne_of_mem_children child
    refine enters.sees hs (by simp [kind]) (.inl hne) ?_ hsymbol
    exact fresh.symbol (within_of_mem_children child) (.inl hne)
  | field kind unhinted =>
    refine enterField_sees hs kind unhinted ?_ henter hsymbol
    exact fresh.symbol (.refl n) (.inr (by simp [kind]))

/-- What is written on a name is found by looking it up, or in a table that is given for it. -/
theorem Names.looksUp {plan : Plan env.tree n} {s : SymbolId} (h : Names env n k) (hs : Sound w)
    (fresh : Fresh env n w) (henter : enter env n w = .ok plan w')
    (hsymbol : (w'.notes.get k).symbol = some s) :
    LooksUp env n w k ∨
      k = n ∧ env.tree.kind n = .field ∧ (w.hinted? (w.hintAt n)).isSome := by
  cases h with
  | own kind apart =>
    rcases kind with kind | kind
    · cases hkind : env.tree.kind n <;> simp [hkind] at kind apart
      · exact .inl (.widget hkind)
      · exact .inl (.record hkind)
    · cases hb : w.hinted? (w.hintAt n) with
      | none => exact .inl (.field kind hb)
      | some b => exact .inr ⟨rfl, kind, rfl⟩
  | member child identifier =>
    have hne := ne_of_mem_children child
    have hnone := fresh.symbol (within_of_mem_children child) (.inl hne)
    cases ((ends_enter env n hs).ok henter).enters with
    | plain runs => exact absurd hsymbol (runs.symbol_ne (.inl hne) hnone)
    | refer moves expects refer =>
      cases refer with
      | member kind => exact .inl (.member kind child identifier)
      | _ =>
        rw [Annotations.get_update_of_ne hne.symm] at hsymbol
        exact absurd hsymbol (moves.runs.symbol_ne (.inl hne) hnone)
    | miss moves miss =>
      rw [miss.notes] at hsymbol
      exact absurd hsymbol (moves.runs.symbol_ne (.inl hne) hnone)

end Enter

/-- The buffers that are bound to the blocks around the current one are in sight. -/
theorem Sound.sees_bound {w : Walk} (hs : Sound w) {id : BufferScopeId} {binding : BufferScope}
    (hid : id ∈ w.index.enclosingBufferScopes w.block)
    (hbinding : w.index.bufferScopes.get? id = some binding) :
    w.index.Sees w.scope binding.buffer := by
  obtain ⟨block, hblock, hscope⟩ := hs.standing.current
  have sees := (hs.coherent.enclosingBufferScopes hblock hid hbinding).2
  rwa [hscope] at sees

end Walk

namespace CompilationUnit

open Walk

/-- Lexical visibility. A name that is looked up stands for something that the current scope or a
scope around it owns, and so does every buffer that is bound to a block around the current one.
When the analysis succeeds, every symbol on a name was found in this way, unless the name was that
of a field in a given table. -/
theorem analyze_ofTree_sees (catalog : Catalog) (types : TypeRegistry) (options : Options)
    (tree : ParseTree) :
    let env : Env := { tree, catalog, types, options }
    let entered := unitEntries env (.blank tree.size)
    (∀ m v plan v' k s, (m, v) ∈ entered → enter env m v = .ok plan v' → LooksUp env m v k →
      (v'.notes.get k).symbol = some s →
      ∃ o, v'.index.holder? s = some o ∧ o ∈ v'.index.scopeChain v.scope) ∧
    (∀ m v id binding, (m, v) ∈ entered → id ∈ v.index.enclosingBufferScopes v.block →
      v.index.bufferScopes.get? id = some binding →
      ∃ o, v.index.owner? binding.buffer = some o ∧ o ∈ v.index.scopeChain v.scope) ∧
    (∀ index u k s, (ofTree tree).analyze catalog types options = (.ok index, u) →
      k ≠ ParseTree.root → (tree.kind k).isName ∨ tree.kind k = .field →
      (u.notes.get k).symbol = some s →
      ∃ m v plan v', (m, v) ∈ entered ∧ enter env m v = .ok plan v' ∧
        (v'.notes.get k).symbol = some s ∧
        (LooksUp env m v k ∨
          k = m ∧ tree.kind m = .field ∧ (v.hinted? (v.hintAt m)).isSome)) := by
  intro env entered
  refine ⟨?_, ?_, ?_⟩
  · intro m v plan v' k s he henter looks hsymbol
    obtain ⟨hs, fresh⟩ := fresh_of_mem_unitEntries he
    obtain ⟨o, ho, hchain⟩ := enter_sees hs fresh henter looks hsymbol
    have coherent := (((ends_enter env m hs).ok henter).enters.sound hs).coherent
    exact ⟨o, (coherent.holder? s).trans ho, hchain⟩
  · intro m v id binding he hid hbinding
    exact (fresh_of_mem_unitEntries he).1.sees_bound hid hbinding
  · intro index u k s hok hroot hk hsymbol
    obtain ⟨w, hw, -, rfl⟩ := analyze_ok catalog types options hok
    obtain ⟨m, v, plan, v', he, henter, names, same⟩ := visitUnit_names hw hroot hk hsymbol
    have hsymbol' : (v'.notes.get k).symbol = some s := (congrArg (·.1) same).trans hsymbol
    obtain ⟨hs, fresh⟩ := fresh_of_mem_unitEntries he
    exact ⟨m, v, plan, v', he, henter, hsymbol', names.looksUp hs fresh henter hsymbol'⟩

/-- In the sample, the procedure sees the table of the program through both of its names. -/
theorem analyze_ofTree_sees_sample :
    let env : Env := { tree := sampleTree, catalog := {}, types := {}, options := {} }
    let entered := unitEntries env (.blank sampleTree.size)
    (∃ m v plan v' s, (m, v) ∈ entered ∧ enter env m v = .ok plan v' ∧ LooksUp env m v ⟨8⟩ ∧
      (v'.notes.get ⟨8⟩).symbol = some s ∧
      ∃ o, v'.index.holder? s = some o ∧ o ∈ v'.index.scopeChain v.scope) ∧
    ∃ v id binding, ((⟨10⟩, v) : NodeId × Walk) ∈ entered ∧
      id ∈ v.index.enclosingBufferScopes v.block ∧ v.index.bufferScopes.get? id = some binding ∧
      ∃ o, v.index.owner? binding.buffer = some o ∧ o ∈ v.index.scopeChain v.scope := by
  intro env entered
  obtain ⟨found, bound, written⟩ := analyze_ofTree_sees {} {} {} sampleTree
  constructor
  · obtain ⟨index, hok⟩ := exists_analyze_ok (u := ofTree sampleTree) {} {} {} (by decide +kernel)
    obtain ⟨m, v, plan, v', he, henter, hs, looks | ⟨rfl, hfield, -⟩⟩ :=
      written index _ ⟨8⟩ ⟨1⟩ hok (by decide) (by decide) (by decide +kernel)
    · exact ⟨m, v, plan, v', ⟨1⟩, he, henter, looks, hs, found m v plan v' _ _ he henter looks hs⟩
    · exact absurd hfield (by decide)
  · have hbound : entered.any fun e => e.1 = ⟨10⟩ &&
        (e.2.index.enclosingBufferScopes e.2.block).any fun id =>
          (e.2.index.bufferScopes.get? id).isSome := by
      decide +kernel
    obtain ⟨⟨m, v⟩, he, hv⟩ := List.any_eq_true.1 hbound
    obtain ⟨hm, hv⟩ := (Bool.and_eq_true _ _).mp hv
    obtain ⟨id, hid, hsome⟩ := List.any_eq_true.1 hv
    obtain ⟨binding, hbinding⟩ := Option.isSome_iff_exists.1 hsome
    cases of_decide_eq_true hm
    exact ⟨v, id, binding, he, hid, hbinding, bound _ v id binding he hid hbinding⟩

end CompilationUnit

end AblResolve
