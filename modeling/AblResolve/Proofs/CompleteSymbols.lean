import AblResolve.Proofs.Pending
import AblResolve.Proofs.TypeClauses
import AblResolve.Proofs.VainLookups
/-!
Symbols that are complete. Nothing gives a complete symbol another type: a variable is complete when
its definition has ended, a field when it has joined its table. Names only lead to complete symbols,
so a type that is found by a name is the type that it has in the end, and what is being defined is
not found by any name.
-/
namespace AblResolve

namespace UnitIndex

variable {x y : UnitIndex} {s : SymbolId}

/-- A symbol does not become a variable. -/
theorem Extends.isVariable (ext : x.Extends y) {symbol symbol' : Symbol}
    (hs : x.symbols.get? s = some symbol) (hs' : y.symbols.get? s = some symbol') :
    symbol'.asVariable?.isSome = symbol.asVariable?.isSome := by
  obtain ⟨symbol'', hs'', fixed⟩ := ext.kind_fixed hs
  rw [hs'] at hs''
  cases hs''
  unfold Symbol.asVariable?
  cases hk : symbol.kind <;> cases hk' : symbol'.kind <;> rw [hk, hk'] at fixed <;>
    first | rfl | cases fixed

end UnitIndex

namespace Walk

open UnitIndex ParseTree

variable {env : Env} {n k : NodeId} {v w w' : Walk} {s : SymbolId}

/-- The symbol is there, and nothing gives it another type any more. -/
structure Complete (w : Walk) (s : SymbolId) : Prop where
  lt_size : s.val < w.index.symbols.size
  closed : w.index.Closed w.openDefinitions s

/-- What names lead to is complete, as long as fields are in the lists of their tables. -/
theorem Regular.complete (h : Regular w) (attached : w.index.IsAttached s)
    (carried : ∀ f, w.index.asFieldBuffer? s = some f → w.index.Carries f.buffer f.field) :
    w.Complete s where
  lt_size := attached.lt_size
  closed := by
    refine ⟨fun symbol hs isVariable isOpen => ?_, fun f hf => ?_⟩
    · obtain ⟨symbol', hs', hattached⟩ := attached
      rw [hs] at hs'
      cases hs'
      rw [h.outOfReach s isOpen symbol hs isVariable] at hattached
      cases hattached
    · obtain ⟨t, -, hasField⟩ := carried f hf
      rw [(h.tables.fields.listed t f.field).1 (hasField_iff.1 hasField)]
      rfl

/-- What is being defined is not complete. -/
theorem Regular.not_complete (h : Regular w) (isOpen : s ∈ w.openDefinitions)
    (typed : w.index.HasType s) : ¬ w.Complete s := by
  rintro ⟨-, notOpen, owned⟩
  obtain ⟨symbol, hs, typed⟩ := typed
  cases hk : symbol.kind with
  | «variable» v => exact notOpen symbol hs (by simp [Symbol.asVariable?, hk]) isOpen
  | fieldBuffer f =>
    have hf := asFieldBuffer?_eq_some.2 ⟨symbol, hs, hk⟩
    have pending : f.field ∈ w.index.pendingFields w.openDefinitions :=
      List.mem_filterMap.2 ⟨s, isOpen, by simp [hf]⟩
    have owner := owned f hf
    rw [((h.tables.unowned _).1 pending).fieldOwner] at owner
    cases owner
  | _ =>
    rw [hk] at typed
    cases typed

section Later

variable (h : Regular w) (complete : w.Complete s) (onward : Strides w w')
include h complete onward

theorem Complete.strides : w'.Complete s := by
  have ext := onward.extends
  obtain ⟨lt, notOpen, owned⟩ := complete
  refine ⟨ext.lt_symbols lt, fun symbol' hs' isVariable isOpen => ?_, fun f hf => ?_⟩
  · obtain ⟨symbol, hs⟩ := Arena.exists_get? lt
    rw [ext.isVariable hs hs'] at isVariable
    rcases onward.opened s isOpen with old | new
    · exact notOpen symbol hs isVariable old
    · exact absurd lt (Nat.not_lt.2 new)
  · rw [ext.asFieldBuffer?_eq lt] at hf
    have owner := owned f hf
    obtain ⟨t, howner⟩ := Option.isSome_iff_exists.1 owner
    obtain ⟨field, hfield, htable⟩ := Option.bind_eq_some_iff.1 howner
    have kept := (onward.keepsTables h.sound h.tables).fields _ field hfield (by simp [htable])
    simp [fieldOwner, kept, htable]

/-- What is complete keeps its type. -/
theorem Complete.valueType : w'.index.valueType s = w.index.valueType s :=
  (onward.keepsFinished h.sound h.tables).valueType onward.extends h.sound.coherent
    complete.closed complete.lt_size

end Later

/-! ### What names lead to -/

section Names

variable {plan : Plan env.tree n} {ref : Reference} {q : Qualifier} {hint : TableHint}

/-- What a reference leads to has been attached, and a field is in the list of its table. -/
theorem Refer.carried (h : Refer env n w ref w') (hsymbol : (w'.notes.get k).symbol = some s) :
    (w.notes.get k).symbol = some s ∧ (env.tree.kind k = .field → k ≠ n) ∨
      w.index.IsAttached s ∧
        ∀ f, w.index.asFieldBuffer? s = some f → w.index.Carries f.buffer f.field := by
  have plain : ∀ {i}, w.index.asFieldBuffer? i = none →
      ∀ f, w.index.asFieldBuffer? i = some f → w.index.Carries f.buffer f.field := by
    intro i hnone f hf
    rw [hnone] at hf
    cases hf
  cases h with
  | record bufferScope abbreviated kind isBuffer found sees attached =>
    rcases symbol_update hsymbol with ⟨rfl, hnew⟩ | ⟨hne, hold⟩
    · cases hnew
      exact .inr ⟨attached, plain (IsBuffer.asFieldBuffer? ⟨_, isBuffer⟩)⟩
    · exact .inl ⟨hold, fun _ => hne.symm⟩
  | field store bufferScope unqualified abbreviated kind leads =>
    rcases symbol_update hsymbol with ⟨rfl, hnew⟩ | ⟨hne, hold⟩
    · cases hnew
      exact .inr ⟨leads.attached, leads.carried⟩
    · exact .inl ⟨hold, fun _ => hne.symm⟩
  | widget kind sees attached hplain =>
    rcases symbol_update hsymbol with ⟨rfl, hnew⟩ | ⟨hne, hold⟩
    · cases hnew
      exact .inr ⟨attached, plain hplain⟩
    · exact .inl ⟨hold, fun _ => hne.symm⟩
  | member kind child identifier sees attached hplain =>
    rcases symbol_update hsymbol with ⟨rfl, hnew⟩ | ⟨hne, hold⟩
    · cases hnew
      exact .inr ⟨attached, plain hplain⟩
    · refine .inl ⟨hold, ?_⟩
      rintro hfield rfl
      rw [kind] at hfield
      cases hfield

theorem Refer.complete (h : Refer env n w ref w') (regular : Regular w)
    (hsymbol : (w'.notes.get k).symbol = some s) :
    (w.notes.get k).symbol = some s ∧ (env.tree.kind k = .field → k ≠ n) ∨ w'.Complete s := by
  refine (h.carried hsymbol).imp id fun ⟨attached, carried⟩ => ?_
  exact .strides regular (regular.complete attached carried)
    (.single ⟨.refer h.refers h.frame, h.sound regular.sound⟩)

/-- A field that is looked up is found, or nothing is written on it. -/
theorem resolveField_finds (hs : Sound w) (kind : env.tree.kind n = .field)
    (hok : resolveField env n q hint w = .ok () w') :
    (∃ v, Moves env n w v ∧ Refer env n v (.field q hint) w') ∨
      w'.notes = w.notes ∧ w.index.Extends w'.index := by
  obtain ⟨outcome, seeks⟩ := (ends_resolveField env n hs kind q hint).ok hok
  cases seeks with
  | found moves refer => exact .inl ⟨_, moves, refer⟩
  | tolerated _ _ same => exact .inr (same ▸ ⟨rfl, .refl _⟩)
  | missing moves miss =>
    have ext := moves.runs.extends.trans miss.extends
    rcases resolveField_cases hs hok with ⟨same, -⟩ | ⟨_, _, rfl⟩
    · -- a field that has been missed has been noted
      have before : _ = w.index.unresolved := congrArg (·.1) moves.runs.misses
      rw [← before] at same
      have longer := congrArg List.length same
      cases miss <;> simp [misses] at longer
    · exact .inr ⟨rfl, ext⟩

theorem enterField_complete (regular : Regular w) (fresh : Fresh env n w)
    (kind : env.tree.kind n = .field) (hok : enterField env n w = .ok plan w')
    (regular' : Regular w') (hsymbol : (w'.notes.get n).symbol = some s) : w'.Complete s := by
  have hs := regular.sound
  obtain ⟨v, primed, last⟩ := enterField_ok hs kind hok
  have hv := primed.moves.runs.sound hs
  -- before the lookup, nothing but a variable that is defined there stands on the field
  have inline : (v.notes.get n).symbol = some s →
      v.index.IsAttached s ∧ v.index.asFieldBuffer? s = none := by
    intro hold
    rcases primed.symbol with same | ⟨i, hi, attached, plain⟩
    · rw [same, fresh.symbol (.refl n) (.inr (by simp [kind]))] at hold
      cases hold
    · rw [hi] at hold
      cases hold
      exact ⟨attached, plain⟩
  have unfound : w'.notes = v.notes → v.index.Extends w'.index → w'.Complete s := by
    intro same ext
    rw [same] at hsymbol
    obtain ⟨attached, plain⟩ := inline hsymbol
    refine regular'.complete (attached.extends ext) fun f hf => ?_
    rw [ext.asFieldBuffer?_eq attached.lt_size, plain] at hf
    cases hf
  rcases last with ⟨-, rfl⟩ | ⟨-, -, hresolve⟩
  · exact unfound rfl (.refl _)
  · rcases resolveField_finds hv kind hresolve with ⟨u, moves, refer⟩ | ⟨same, ext⟩
    · have onward : Strides w u :=
        (Runs.strides primed.moves.runs hs).trans (Runs.strides moves.runs hv)
      exact (refer.complete (onward.regular regular) hsymbol).resolve_left fun h => h.2 kind rfl
    · exact unfound same ext

/-- What a name is found to stand for is complete. -/
theorem Names.complete (names : Names env n k) (regular : Regular w) (fresh : Fresh env n w)
    (henter : enter env n w = .ok plan w') (hsymbol : (w'.notes.get k).symbol = some s) :
    w'.Complete s := by
  have hs := regular.sound
  by_cases hfield : env.tree.kind k = .field
  · cases names with
    | own =>
      have regular' := (((ends_enter env n hs).ok henter).enters.strides hs).regular regular
      rw [enter_field hfield] at henter
      exact enterField_complete regular fresh hfield henter regular' hsymbol
    | member child identifier =>
      rw [identifier] at hfield
      cases hfield
  · have finds : Finds env n k w' s := ⟨names, hsymbol, fun h => absurd h hfield⟩
    obtain ⟨v, ref, moves, -, refer, new⟩ := finds.refer hs fresh henter
    exact (refer.complete ((Runs.strides moves.runs hs).regular regular) hsymbol).resolve_left new

end Names

/-! ### Over a unit -/

section Unit

variable {size : Nat} {plan : Plan env.tree n}

theorem regular_of_mem_unitEntries {notes : Annotations} {e : NodeId × Walk}
    (hok : visitUnit env (start env notes) = .ok () w) (he : e ∈ unitEntries env notes) :
    Regular e.2 := by
  obtain ⟨before, after, v', around⟩ := (visitUnit_surveys hok).around e he
  exact around.starts.strides.regular (regular_start env notes)

/-- What the names on the nodes of a unit stand for was complete when they were looked up. -/
theorem visitUnit_complete {u : Walk}
    (hok : visitUnit env (start env (.blank size)) = .ok () w)
    (he : (n, v) ∈ unitEntries env (.blank size)) (henter : enter env n v = .ok plan u)
    (names : Names env n k) (hsymbol : (w.notes.get k).symbol = some s) :
    Regular u ∧ u.Complete s := by
  have regular := regular_of_mem_unitEntries hok he
  have fresh := (fresh_of_mem_unitEntries he).2
  have settled := (visitUnit_settles hok n v plan u he henter).2 k names
  have entering := ((ends_enter env n regular.sound).ok henter).enters.strides regular.sound
  have same : (u.notes.get k).symbol = (w.notes.get k).symbol := (congrArg (·.1) settled).symm
  exact ⟨entering.regular regular, names.complete regular fresh henter (same.trans hsymbol)⟩

end Unit

end Walk

end AblResolve
