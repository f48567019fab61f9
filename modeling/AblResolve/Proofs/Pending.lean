import AblResolve.Proofs.Visibility
/-!
Definitions have two phases: a symbol is pending while its definition is being read, and names lead
to it once it is attached. So what a name stands for has been attached by the time it is found, and
so has the buffer that a field belongs to. Names are not the only way to a buffer, though: the
buffers in the signature of an event stay pending, and yet they are bound to the block around the
code that declares the event. A bare name that is looked up in the blocks around can slip through
to one of their fields.
-/
namespace AblResolve

namespace Walk

open UnitIndex ParseTree

/-- Entering node `n` has found what the name on node `k` stands for. On a field, the symbol may be
that of a variable which is defined there; the field has been found if it is said how it is used. -/
structure Finds (env : Env) (n k : NodeId) (w' : Walk) (s : SymbolId) : Prop where
  names : Names env n k
  symbol : (w'.notes.get k).symbol = some s
  used : env.tree.kind k = .field → (w'.notes.get k).qualifier.isSome

/-- The one way to a pending buffer `b`: it is the parameter of an event and bound to a block
around field `n`, which is looked up by a bare name and in no given table. -/
structure Slip (env : Env) (n : NodeId) (h : TableHint) (w : Walk) (b : SymbolId) : Prop where
  kind : env.tree.kind n = .field
  unhinted : w.hinted? h = none
  bare : Text.splitLast? (env.tree.text n) = none
  parameter : w.index.IsEventParameter b
  bound : ∃ id, w.Binds id b

section Enter

variable {env : Env} {n k : NodeId} {w w' : Walk} {s : SymbolId} {ref : Reference}

/-- What a reference leads to has been attached, and so has the buffer of a field, unless it has
been slipped through to. -/
theorem Refer.attached (h : Refer env n w ref w') (hs : Sound w)
    (hsymbol : (w'.notes.get k).symbol = some s) :
    (w.notes.get k).symbol = some s ∧ (env.tree.kind k = .field → k ≠ n) ∨
      w'.index.IsAttached s ∧ ∀ f, w'.index.asFieldBuffer? s = some f →
        w'.index.IsAttached f.buffer ∨
          ∃ q hint, ref = .field q hint ∧ Slip env n hint w' f.buffer := by
  have ext := h.extends
  have frame := h.frame
  -- what has been found by its own name belongs to no buffer
  have plain : ∀ {i}, w.index.IsAttached i → w.index.asFieldBuffer? i = none →
      w'.index.IsAttached i ∧ ∀ f, w'.index.asFieldBuffer? i = some f →
        w'.index.IsAttached f.buffer ∨
          ∃ q hint, ref = .field q hint ∧ Slip env n hint w' f.buffer := by
    intro i attached hnone
    refine ⟨attached.extends ext, fun f hf => ?_⟩
    rw [ext.asFieldBuffer?_eq attached.lt_size, hnone] at hf
    cases hf
  cases h with
  | record bufferScope abbreviated kind isBuffer found sees attached =>
    rcases symbol_update hsymbol with ⟨rfl, hnew⟩ | ⟨hne, hold⟩
    · cases hnew
      exact .inr (plain attached (IsBuffer.asFieldBuffer? ⟨_, isBuffer⟩))
    · exact .inl ⟨hold, fun _ => hne.symm⟩
  | field store bufferScope unqualified abbreviated kind leads =>
    rcases symbol_update hsymbol with ⟨rfl, hnew⟩ | ⟨hne, hold⟩
    · cases hnew
      refine .inr ⟨leads.attached.extends ext, fun f hf => ?_⟩
      rw [ext.asFieldBuffer?_eq leads.attached.lt_size] at hf
      rcases leads.offered f hf with attached | ⟨unhinted, bare, parameter, id, binds⟩
      · exact .inl (attached.extends ext)
      · exact .inr ⟨_, _, rfl, kind, unhinted, bare, parameter.extends ext, id,
          binds.extends hs ext frame⟩
    · exact .inl ⟨hold, fun _ => hne.symm⟩
  | widget kind sees attached hplain =>
    rcases symbol_update hsymbol with ⟨rfl, hnew⟩ | ⟨hne, hold⟩
    · cases hnew
      exact .inr (plain attached hplain)
    · exact .inl ⟨hold, fun _ => hne.symm⟩
  | member kind child identifier sees attached hplain =>
    rcases symbol_update hsymbol with ⟨rfl, hnew⟩ | ⟨hne, hold⟩
    · cases hnew
      exact .inr (plain attached hplain)
    · refine .inl ⟨hold, ?_⟩
      rintro hfield rfl
      rw [kind] at hfield
      cases hfield

/-- What is found has been found by a reference: before it, nothing stood on the name, and a field
was not said to be used. -/
theorem Finds.refer {plan : Plan env.tree n} (h : Finds env n k w' s) (hs : Sound w)
    (fresh : Fresh env n w) (henter : enter env n w = .ok plan w') :
    ∃ v ref, Moves env n w v ∧ w.Expects n ref ∧ Refer env n v ref w' ∧
      ¬ ((v.notes.get k).symbol = some s ∧ (env.tree.kind k = .field → k ≠ n)) := by
  obtain ⟨names, hsymbol, used⟩ := h
  -- short of references, a name stays without a symbol and a field without a use
  have untouched : ∀ {v}, Runs env n w v →
      (env.tree.kind k = .field ∧ k = n ∧ (v.notes.get k).qualifier = none) ∨
        (v.notes.get k).symbol ≠ some s := by
    intro v runs
    cases names with
    | own kind apart =>
      have hnone := fresh n (.refl n) (.inr apart)
      rcases kind with kind | kind
      · exact .inr (Runs.symbol_ne runs (.inr kind) (congrArg (·.1) hnone))
      · exact .inl ⟨kind, rfl, (runs.qualifier kind).trans (congrArg (·.2.1) hnone)⟩
    | member child identifier =>
      have hne := ne_of_mem_children child
      have hnone := fresh k (within_of_mem_children child) (.inl hne)
      exact .inr (Runs.symbol_ne runs (.inl hne) (congrArg (·.1) hnone))
  have nothing : ∀ {v}, Runs env n w v → w'.notes = v.notes → False := by
    intro v runs same
    rw [same] at hsymbol used
    rcases untouched runs with ⟨hfield, -, hnone⟩ | hne
    · have hsome := used hfield
      rw [hnone] at hsome
      cases hsome
    · exact hne hsymbol
  cases ((ends_enter env n hs).ok henter).enters with
  | plain runs => exact (nothing runs rfl).elim
  | refer moves expects refer =>
    refine ⟨_, _, moves, expects, refer, ?_⟩
    rintro ⟨hold, apart⟩
    rcases untouched moves.runs with ⟨hfield, hkn, -⟩ | hne
    · exact apart hfield hkn
    · exact hne hold
  | miss moves miss => exact (nothing moves.runs miss.notes).elim

/-- What is found has been attached, and so has the buffer of a field, unless it has been slipped
through to. -/
theorem Finds.attached {plan : Plan env.tree n} (h : Finds env n k w' s) (hs : Sound w)
    (fresh : Fresh env n w) (henter : enter env n w = .ok plan w') :
    w'.index.IsAttached s ∧ ∀ f, w'.index.asFieldBuffer? s = some f →
      w'.index.IsAttached f.buffer ∨ Slip env n (w.hintAt n) w' f.buffer := by
  obtain ⟨v, ref, moves, expects, refer, new⟩ := h.refer hs fresh henter
  obtain ⟨attached, buffer⟩ := (refer.attached (moves.runs.sound hs) h.symbol).resolve_left new
  refine ⟨attached, fun f hf => (buffer f hf).imp id ?_⟩
  rintro ⟨q, hint, rfl, slip⟩
  exact expects.2 ▸ slip

end Enter

end Walk

namespace CompilationUnit

open UnitIndex Walk

/-- No reference leads to a pending symbol, and none leads to a field of a pending buffer, unless it
slips through to the parameter of an event. When the analysis succeeds, this holds of all that the
names on the tree stand for. -/
theorem analyze_ofTree_attached (catalog : Catalog) (types : TypeRegistry) (options : Options)
    (tree : ParseTree) :
    let env : Env := { tree, catalog, types, options }
    let entered := unitEntries env (.blank tree.size)
    (∀ m v plan v' k s, (m, v) ∈ entered → enter env m v = .ok plan v' → Finds env m k v' s →
      v'.index.IsAttached s ∧ ∀ f, v'.index.asFieldBuffer? s = some f →
        v'.index.IsAttached f.buffer ∨ Slip env m (v.hintAt m) v' f.buffer) ∧
    (∀ index u k s, (ofTree tree).analyze catalog types options = (.ok index, u) →
      k ≠ ParseTree.root → (tree.kind k).isName ∨
        tree.kind k = .field ∧ (u.notes.get k).qualifier.isSome →
      (u.notes.get k).symbol = some s →
      index.IsAttached s ∧ (∀ f, index.asFieldBuffer? s = some f →
        index.IsAttached f.buffer ∨ index.IsEventParameter f.buffer) ∧
      ∃ m v plan v', (m, v) ∈ entered ∧ enter env m v = .ok plan v' ∧ Finds env m k v' s) := by
  intro env entered
  have found : ∀ m v plan v' k s, (m, v) ∈ entered → enter env m v = .ok plan v' →
      Finds env m k v' s → v'.index.IsAttached s ∧ ∀ f, v'.index.asFieldBuffer? s = some f →
        v'.index.IsAttached f.buffer ∨ Slip env m (v.hintAt m) v' f.buffer := by
    intro m v plan v' k s he henter finds
    obtain ⟨hs, fresh⟩ := fresh_of_mem_unitEntries he
    exact finds.attached hs fresh henter
  refine ⟨found, ?_⟩
  intro index u k s hok hroot hk hsymbol
  obtain ⟨w, hw, rfl, rfl⟩ := analyze_ok catalog types options hok
  obtain ⟨m, v, plan, v', he, henter, names, same⟩ :=
    visitUnit_names hw hroot (hk.imp id And.left) hsymbol
  have finds : Finds env m k v' s := by
    refine ⟨names, (congrArg (·.1) same).trans hsymbol, fun hfield => ?_⟩
    have hqualifier : (v'.notes.get k).qualifier = (w.notes.get k).qualifier :=
      congrArg (·.2.1) same
    rcases hk with hname | ⟨-, used⟩
    · rw [show tree.kind k = .field from hfield] at hname
      cases hname
    · rwa [hqualifier]
  obtain ⟨attached, buffer⟩ := found m v plan v' k s he henter finds
  obtain ⟨ext, -⟩ := visitUnit_settles hw m v plan v' he henter
  refine ⟨attached.extends ext, fun f hf => ?_, m, v, plan, v', he, henter, finds⟩
  rw [ext.asFieldBuffer?_eq attached.lt_size] at hf
  exact (buffer f hf).imp (·.extends ext) fun slip => slip.parameter.extends ext

/-- A temp-table, an event with a buffer of it in its signature, and a field of the table that is
displayed afterwards. -/
def eventSample : ParseTree := .ofRows [
  (0, .defineTempTable, ""), (1, .identifier, "tt"), (1, .tableField, ""), (3, .identifier, "f"),
  (0, .defineEvent, ""), (5, .identifier, "e"), (5, .bufferParameter, ""), (7, .identifier, "b"),
  (7, .record, "tt"), (0, .displayStatement, ""), (10, .field, "f")]

/-- In the sample, the record stands for an attached buffer, but the field slips through to the
buffer of the event, which is still pending when the analysis is over. -/
theorem analyze_ofTree_attached_sample :
    ∃ index u s f, (ofTree eventSample).analyze {} {} {} = (.ok index, u) ∧
      (∃ t, (u.notes.get ⟨9⟩).symbol = some t ∧ index.IsAttached t) ∧
      (u.notes.get ⟨11⟩).symbol = some s ∧ index.IsAttached s ∧
      index.asFieldBuffer? s = some f ∧ ¬ index.IsAttached f.buffer ∧
      index.IsEventParameter f.buffer := by
  obtain ⟨index, hok, hfield, hpending⟩ := exists_analyze_ok_and (u := ofTree eventSample) {} {} {}
    (P := fun x => (x.asFieldBuffer? ⟨5⟩).map (·.buffer) = some ⟨4⟩ ∧
      (x.symbols.get? ⟨4⟩).map (·.attached) = some false) (by decide +kernel)
  obtain ⟨f, hf, hbuffer⟩ := Option.map_eq_some_iff.1 hfield
  obtain ⟨symbol, hsymbol, hattached⟩ := Option.map_eq_some_iff.1 hpending
  have pending : ¬ index.IsAttached f.buffer := by
    rw [hbuffer]
    rintro ⟨symbol', hsymbol', hattached'⟩
    rw [hsymbol] at hsymbol'
    cases hsymbol'
    rw [hattached] at hattached'
    cases hattached'
  obtain ⟨-, found⟩ := analyze_ofTree_attached {} {} {} eventSample
  obtain ⟨record, -⟩ := found index _ ⟨9⟩ ⟨1⟩ hok (by decide) (.inl (by decide)) (by decide +kernel)
  have hname : (((ofTree eventSample).analyze {} {} {}).2.notes.get ⟨11⟩).symbol = some ⟨5⟩ := by
    decide +kernel
  obtain ⟨attached, buffer, -⟩ := found index _ ⟨11⟩ ⟨5⟩ hok (by decide)
    (.inr ⟨by decide, by decide +kernel⟩) hname
  exact ⟨index, _, ⟨5⟩, f, hok, ⟨⟨1⟩, by decide +kernel, record⟩, hname, attached, hf, pending,
    (buffer f hf).resolve_left pending⟩

end CompilationUnit

end AblResolve
