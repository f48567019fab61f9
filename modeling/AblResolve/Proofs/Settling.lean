import AblResolve.Proofs.DeedsOfActions
/-!
Unsettled symbols. A symbol that is pending and in no signature of an event still has to be attached
or to become such a parameter. A plan has at most one such symbol in hand, and what is done with it
settles it.
-/
namespace AblResolve

open UnitIndex

/-! ### Symbols -/

/-- What decides whether a symbol is settled and which symbols it settles. -/
def Symbol.settlement (s : Symbol) : Bool × List SymbolId := (s.attached, s.signature)

section Symbols

variable {s s' : Symbol} {p i : SymbolId}

theorem Symbol.signature_of_kind {ps : List SymbolId} (h : s.kind = .event ps) :
    s.signature = ps := by
  simp [signature, asEvent?, h]

theorem Symbol.signature_of_bare (h : s.parameterList = []) : s.signature = [] := by
  unfold signature asEvent?
  split
  · rename_i ps hk
    simpa [parameterList, hk] using h
  · rfl

theorem Symbol.settlement_of_core (h : s'.core = s.core) : s'.settlement = s.settlement := by
  have kinds := kind_of_core h
  have same : s'.signature = s.signature := by
    unfold signature asEvent?
    cases hs : s.kind <;> cases hs' : s'.kind <;>
      simp only [hs, hs', SymbolKind.core, reduceCtorEq, SymbolKind.event.injEq] at kinds <;>
      simp_all
  rw [settlement, settlement, attached_of_core h, same]

theorem Symbol.space?_of_core (h : s'.core = s.core) : s'.kind.space? = s.kind.space? := by
  have kinds := kind_of_core h
  cases hs : s.kind <;> cases hs' : s'.kind <;>
    simp only [hs, hs', SymbolKind.core, reduceCtorEq, SymbolKind.widget.injEq,
      SymbolKind.tableBuffer.injEq, TableBuffer.mk.injEq] at kinds <;>
    simp_all [SymbolKind.space?]

theorem Symbol.Hidden.attached {listed : List (String × TableId)} (h : s.Hidden listed) :
    s.attached = true := by
  cases h <;> assumption

theorem Symbol.Hidden.signature {listed : List (String × TableId)} (h : s.Hidden listed) :
    s.signature = [] := by
  cases h with
  | field _ kind => simp [Symbol.signature, asEvent?, kind]
  | default _ kind => simp [Symbol.signature, asEvent?, kind]

theorem Symbol.settlement_enlisted (mode : ParameterMode) :
    (s.enlisted p mode).settlement = s.settlement := by
  unfold enlisted
  split
  · rename_i r hk
    simp [settlement, signature, asEvent?, hk]
  · rfl

theorem Symbol.signature_signed {ps : List SymbolId} (h : s.kind = .event ps) :
    (s.signed p).signature = ps ++ [p] := by
  simp [signed, h, signature, asEvent?]

theorem Symbol.attached_signed : (s.signed p).attached = s.attached := by
  unfold signed
  split <;> rfl

theorem Symbol.mem_signature_signed (h : i ∈ (s.signed p).signature) : i ∈ s.signature ∨ i = p := by
  unfold signed at h
  split at h
  · rename_i ps hk
    rw [signature_of_kind hk]
    rw [signature_of_kind rfl] at h
    simpa using h
  · exact .inl h

end Symbols

namespace UnitIndex

variable {x y : UnitIndex} {i s event : SymbolId}

/-- The symbol has not been attached. -/
def IsPending (x : UnitIndex) (i : SymbolId) : Prop :=
  ∃ symbol, x.symbols.get? i = some symbol ∧ symbol.attached = false

/-- The symbol is pending, and not because it is the parameter of an event. -/
structure Unsettled (x : UnitIndex) (i : SymbolId) : Prop where
  pending : x.IsPending i
  free : ¬ x.IsEventParameter i

/-- The symbol is one that names of this namespace lead to. -/
def HasSpace (x : UnitIndex) (i : SymbolId) (space : Namespace) : Prop :=
  ∃ symbol, x.symbols.get? i = some symbol ∧ symbol.kind.space? = some space

/-- The parameters of events are symbols. -/
def Listed (x : UnitIndex) : Prop := ∀ i, x.IsEventParameter i → ∃ s, x.symbols.get? i = some s

theorem IsPending.found (h : x.IsPending i) : ∃ s, x.symbols.get? i = some s := by
  obtain ⟨s, hs, -⟩ := h
  exact ⟨s, hs⟩

/-! ### What changes -/

section Changes

/-- The symbols are the same in what decides whether they are settled, but for new ones that are
attached and have no parameters. -/
structure SettledAlike (x y : UnitIndex) : Prop where
  keeps : x.symbols.Keeps Symbol.settlement y.symbols
  new : ∀ i v, y.symbols.get? i = some v →
    (∃ u, x.symbols.get? i = some u) ∨ v.attached = true ∧ v.signature = []

theorem SettledAlike.pending (h : SettledAlike x y) : y.IsPending i ↔ x.IsPending i := by
  constructor
  · rintro ⟨v, hv, attached⟩
    rcases h.new i v hv with ⟨u, hu⟩ | ⟨attached', -⟩
    · obtain ⟨v', hv', same⟩ := h.keeps i u hu
      rw [hv] at hv'
      cases hv'
      exact ⟨u, hu, (congrArg (·.1) same).symm.trans attached⟩
    · rw [attached] at attached'
      cases attached'
  · rintro ⟨u, hu, attached⟩
    obtain ⟨v, hv, same⟩ := h.keeps i u hu
    exact ⟨v, hv, (congrArg (·.1) same).trans attached⟩

theorem SettledAlike.isEventParameter (h : SettledAlike x y) :
    y.IsEventParameter i ↔ x.IsEventParameter i := by
  constructor
  · rintro ⟨e, v, hv, mem⟩
    rcases h.new e v hv with ⟨u, hu⟩ | ⟨-, bare⟩
    · obtain ⟨v', hv', same⟩ := h.keeps e u hu
      rw [hv] at hv'
      cases hv'
      exact ⟨e, u, hu, (congrArg (·.2) same : v.signature = u.signature) ▸ mem⟩
    · rw [bare] at mem
      cases mem
  · rintro ⟨e, u, hu, mem⟩
    obtain ⟨v, hv, same⟩ := h.keeps e u hu
    exact ⟨e, v, hv, (congrArg (·.2) same : v.signature = u.signature) ▸ mem⟩

theorem SettledAlike.unsettled (h : SettledAlike x y) : y.Unsettled i ↔ x.Unsettled i :=
  ⟨fun u => ⟨h.pending.1 u.pending, mt h.isEventParameter.2 u.free⟩,
    fun u => ⟨h.pending.2 u.pending, mt h.isEventParameter.1 u.free⟩⟩

theorem SettledAlike.listed (h : SettledAlike x y) (listed : x.Listed) : y.Listed := by
  intro i parameter
  obtain ⟨s, hs⟩ := listed i (h.isEventParameter.1 parameter)
  obtain ⟨s', hs', -⟩ := h.keeps i s hs
  exact ⟨s', hs'⟩

theorem settledAlike_update {f : Symbol → Symbol} (h : ∀ s, (f s).settlement = s.settlement)
    (symbols : y.symbols = x.symbols.update event f) : SettledAlike x y := by
  refine ⟨symbols ▸ Arena.keeps_update fun v _ => h v, fun i v hv => .inl ?_⟩
  rw [symbols] at hv
  exact Arena.exists_get? (by simpa using Arena.lt_size_of_get? hv)

theorem settledAlike_same (symbols : y.symbols = x.symbols) : SettledAlike x y := by
  refine ⟨symbols ▸ .refl _ _, fun i v hv => .inl ⟨v, symbols ▸ hv⟩⟩

variable {symbol : Symbol}

theorem isPending_withSymbol (pending : symbol.attached = false) :
    (x.withSymbol symbol).IsPending i ↔ x.IsPending i ∨ i = x.symbols.next := by
  constructor
  · rintro ⟨v, hv, attached⟩
    rcases Arena.get?_push_cases hv with ⟨rfl, rfl⟩ | hv
    · exact .inr rfl
    · exact .inl ⟨v, hv, attached⟩
  · rintro (⟨v, hv, attached⟩ | rfl)
    · exact ⟨v, Arena.get?_push_of_get? hv, attached⟩
    · exact ⟨symbol, Arena.get?_push_next _ _, pending⟩

theorem isEventParameter_withSymbol (bare : symbol.parameterList = []) :
    (x.withSymbol symbol).IsEventParameter i ↔ x.IsEventParameter i := by
  constructor
  · rintro ⟨e, v, hv, mem⟩
    rcases Arena.get?_push_cases hv with ⟨rfl, rfl⟩ | hv
    · rw [Symbol.signature_of_bare bare] at mem
      cases mem
    · exact ⟨e, v, hv, mem⟩
  · rintro ⟨e, v, hv, mem⟩
    exact ⟨e, v, Arena.get?_push_of_get? hv, mem⟩

theorem isPending_attached (space : Namespace) :
    (x.attached s symbol space).IsPending i ↔ x.IsPending i ∧ i ≠ s := by
  constructor
  · rintro ⟨v, hv, attached⟩
    rcases Arena.get?_update_cases hv with ⟨rfl, old, hold, rfl⟩ | ⟨hne, hv⟩
    · cases attached
    · exact ⟨⟨v, hv, attached⟩, hne.symm⟩
  · rintro ⟨⟨v, hv, attached⟩, hne⟩
    refine ⟨v, ?_, attached⟩
    show (x.symbols.update s _).get? i = _
    rw [Arena.get?_update, if_neg hne.symm, hv]

theorem isEventParameter_attached (space : Namespace) :
    (x.attached s symbol space).IsEventParameter i ↔ x.IsEventParameter i := by
  constructor
  · rintro ⟨e, v, hv, mem⟩
    rcases Arena.get?_update_cases hv with ⟨rfl, old, hold, rfl⟩ | ⟨-, hv⟩
    · exact ⟨_, old, hold, mem⟩
    · exact ⟨e, v, hv, mem⟩
  · rintro ⟨e, v, hv, mem⟩
    by_cases he : s = e
    · subst he
      refine ⟨s, { v with attached := true }, ?_, mem⟩
      show (x.symbols.update s _).get? s = _
      rw [Arena.get?_update, if_pos rfl, hv]
      rfl
    · refine ⟨e, v, ?_, mem⟩
      show (x.symbols.update s _).get? e = _
      rw [Arena.get?_update, if_neg he, hv]

/-- The index with a further parameter in the signature of an event. -/
def withSigned (x : UnitIndex) (event s : SymbolId) : UnitIndex :=
  { x with symbols := x.symbols.update event (·.signed s) }

theorem keeps_signed {β : Type} {fixed : Symbol → β}
    (h : ∀ {v : Symbol}, fixed (v.signed s) = fixed v) :
    x.symbols.Keeps fixed (x.withSigned event s).symbols :=
  Arena.keeps_update fun _ _ => h

theorem isPending_withSigned : (x.withSigned event s).IsPending i ↔ x.IsPending i := by
  constructor
  · rintro ⟨v, hv, attached⟩
    rcases Arena.get?_update_cases hv with ⟨rfl, old, hold, rfl⟩ | ⟨-, hv⟩
    · exact ⟨old, hold, Symbol.attached_signed.symm.trans attached⟩
    · exact ⟨v, hv, attached⟩
  · rintro ⟨v, hv, attached⟩
    obtain ⟨v', hv', same⟩ := keeps_signed Symbol.attached_signed i v hv
    exact ⟨v', hv', same.trans attached⟩

theorem isEventParameter_withSigned (isEvent : x.IsEvent event) :
    (x.withSigned event s).IsEventParameter i ↔ x.IsEventParameter i ∨ i = s := by
  constructor
  · rintro ⟨e, v, hv, mem⟩
    rcases Arena.get?_update_cases hv with ⟨rfl, old, hold, rfl⟩ | ⟨-, hv⟩
    · exact (Symbol.mem_signature_signed mem).imp_left fun mem => ⟨_, old, hold, mem⟩
    · exact .inl ⟨e, v, hv, mem⟩
  · have grown : ∀ {p}, (∃ v ps, x.symbols.get? event = some v ∧ v.kind = .event ps ∧
        (p ∈ ps ∨ p = s)) → (x.withSigned event s).IsEventParameter p := by
      rintro p ⟨v, ps, hv, hk, mem⟩
      refine ⟨event, v.signed s, ?_, ?_⟩
      · show (x.symbols.update event _).get? event = _
        rw [Arena.get?_update, if_pos rfl, hv]
        rfl
      · rw [Symbol.signature_signed hk]
        simpa using mem
    obtain ⟨event', ps, hevent, hkind⟩ := isEvent
    rintro (⟨e, v, hv, mem⟩ | rfl)
    · by_cases he : event = e
      · subst he
        rw [hevent] at hv
        cases hv
        refine grown ⟨_, ps, hevent, hkind, .inl ?_⟩
        rwa [Symbol.signature_of_kind hkind] at mem
      · refine ⟨e, v, ?_, mem⟩
        show (x.symbols.update event _).get? e = _
        rw [Arena.get?_update, if_neg he, hv]
    · exact grown ⟨_, ps, hevent, hkind, .inr rfl⟩

end Changes

end UnitIndex

namespace Walk

variable {env : Env} {l : Licence} {w w' : Walk}

theorem Calm.settledAlike (h : Calm l w w') : SettledAlike w.index w'.index where
  keeps i v hv := by
    obtain ⟨v', hv', same⟩ := h.symbols.keeps i v hv
    exact ⟨v', hv', Symbol.settlement_of_core same⟩
  new i v hv := by
    rcases h.symbols.new i v hv with hlt | hidden
    · exact .inl (Arena.exists_get? hlt)
    · exact .inr ⟨hidden.attached, hidden.signature⟩

theorem Calm.hasSpace (h : Calm l w w') {i : SymbolId} {space : Namespace}
    (has : w.index.HasSpace i space) : w'.index.HasSpace i space := by
  obtain ⟨v, hv, hspace⟩ := has
  obtain ⟨v', hv', same⟩ := h.symbols.keeps i v hv
  exact ⟨v', hv', (Symbol.space?_of_core same).trans hspace⟩

/-! ### Deeds in order -/

/-- What is known of a deed when it is done. What is attached is unsettled, and what joins the
signature of an event is an unsettled variable or named buffer, or else a default buffer. -/
def Proper (x : UnitIndex) : Deed → Prop
  | .attach s => x.Unsettled s
  | .sign event s => x.IsEvent event ∧ ∃ space, x.HasSpace s space ∧
      (x.Unsettled s ∧ (space = .variable ∨ space = .buffer) ∨ ¬ x.IsPending s ∧ space = .table)
  | _ => True

/-- A licence for everything. -/
def Licence.all : Licence := { nodes := fun _ => True, tables := True }

/-- The deeds between two states, all of them proper. -/
inductive Properly (env : Env) : Walk → List Deed → Walk → Prop
  | calm {w w' : Walk} (calm : Calm .all w w') : Properly env w [] w'
  | deed {w w₁ w₂ w' : Walk} {d : Deed} {ds : List Deed} (before : Calm .all w w₁)
      (proper : Proper w₁.index d) (effect : Effect env w₁ d w₂) (rest : Properly env w₂ ds w') :
      Properly env w (d :: ds) w'

/-- Deeds that neither make nor settle a symbol. -/
def Deed.isAside : Deed → Bool
  | .make .. | .attach _ | .sign .. => false
  | _ => true

/-- The deeds lead from one symbol in hand to another, or to none. -/
inductive Handles : Option (SymbolId × Namespace) → List Deed → Option (SymbolId × Namespace) → Prop
  | nil (o : Option (SymbolId × Namespace)) : Handles o [] o
  | make {s : SymbolId} {space : Namespace} {ds : List Deed} {o : Option (SymbolId × Namespace)}
      (rest : Handles (some (s, space)) ds o) : Handles none (.make s space :: ds) o
  | attach {s : SymbolId} {space : Namespace} {ds : List Deed} {o : Option (SymbolId × Namespace)}
      (rest : Handles none ds o) : Handles (some (s, space)) (.attach s :: ds) o
  | sign {event s : SymbolId} {space : Namespace} {ds : List Deed}
      {o : Option (SymbolId × Namespace)} (fits : space = .variable ∨ space = .buffer)
      (rest : Handles none ds o) : Handles (some (s, space)) (.sign event s :: ds) o
  | aside {d : Deed} {ds : List Deed} {o o' : Option (SymbolId × Namespace)} (aside : d.isAside)
      (rest : Handles o ds o') : Handles o (d :: ds) o'

/-- Besides the symbols in `U`, exactly the symbol in hand is unsettled. -/
structure InHand (U : SymbolId → Prop) (x : UnitIndex) (o : Option (SymbolId × Namespace)) :
    Prop where
  listed : x.Listed
  unsettled : ∀ i, x.Unsettled i ↔ U i ∨ ∃ space, o = some (i, space)
  apart : ∀ i space, o = some (i, space) → ¬ U i ∧ x.HasSpace i space

section InHand

variable {U : SymbolId → Prop} {x y : UnitIndex} {o o' : Option (SymbolId × Namespace)}
  {s event : SymbolId} {space : Namespace} {ds : List Deed}

theorem InHand.alike (h : InHand U x o) (alike : SettledAlike x y)
    (spaces : ∀ {i space}, x.HasSpace i space → y.HasSpace i space) : InHand U y o where
  listed := alike.listed h.listed
  unsettled i := alike.unsettled.trans (h.unsettled i)
  apart i space ho := (h.apart i space ho).imp_right spaces

theorem InHand.calm (h : InHand U w.index o) (calm : Calm l w w') : InHand U w'.index o :=
  h.alike calm.settledAlike calm.hasSpace

theorem InHand.make {symbol : Symbol} (h : InHand U x none) (pending : symbol.attached = false)
    (named : x.spaceOf? symbol = some space) (bare : symbol.parameterList = []) :
    InHand U (x.withSymbol symbol) (some (x.symbols.next, space)) := by
  have new : ∀ {i}, (∃ s, x.symbols.get? i = some s) → i ≠ x.symbols.next := by
    rintro i ⟨s, hs⟩ rfl
    exact Nat.lt_irrefl _ (Arena.lt_size_of_get? hs)
  have unsettled : ∀ i, x.Unsettled i ↔ U i := by simpa using h.unsettled
  refine ⟨fun i parameter => ?_, fun i => ⟨fun u => ?_, ?_⟩, ?_⟩
  · obtain ⟨s, hs⟩ := h.listed i ((isEventParameter_withSymbol bare).1 parameter)
    exact ⟨s, Arena.get?_push_of_get? hs⟩
  · rcases (isPending_withSymbol pending).1 u.pending with old | rfl
    · exact .inl ((unsettled i).1 ⟨old, mt (isEventParameter_withSymbol bare).2 u.free⟩)
    · exact .inr ⟨space, rfl⟩
  · rintro (old | ⟨_, ho⟩)
    · obtain ⟨old, free⟩ := (unsettled i).2 old
      exact ⟨(isPending_withSymbol pending).2 (.inl old),
        mt (isEventParameter_withSymbol bare).1 free⟩
    · cases ho
      refine ⟨(isPending_withSymbol pending).2 (.inr rfl), fun parameter => ?_⟩
      exact new (h.listed _ ((isEventParameter_withSymbol bare).1 parameter)) rfl
  · rintro i _ ⟨⟩
    exact ⟨fun old => new ((unsettled _).2 old).pending.found rfl,
      symbol, Arena.get?_push_next _ _, UnitIndex.space?_of_spaceOf? named⟩

theorem InHand.held (h : InHand U x (some (s, space))) : x.Unsettled s :=
  (h.unsettled s).2 (.inr ⟨space, rfl⟩)

/-- What is in hand is put down when it is settled and nothing else changes. -/
theorem InHand.settle (h : InHand U x (some (s, space))) (listed : y.Listed)
    (settled : ∀ i, y.Unsettled i ↔ x.Unsettled i ∧ i ≠ s) : InHand U y none where
  listed := listed
  unsettled i := by
    rw [settled, h.unsettled]
    constructor
    · rintro ⟨old | ⟨_, ho⟩, hne⟩
      · exact .inl old
      · cases ho
        exact absurd rfl hne
    · rintro (old | ⟨_, ho⟩)
      · refine ⟨.inl old, ?_⟩
        rintro rfl
        exact (h.apart i space rfl).1 old
      · cases ho
  apart i space ho := nomatch ho

theorem InHand.attach (h : InHand U x (some (s, space))) (symbol : Symbol) (space' : Namespace) :
    InHand U (x.attached s symbol space') none := by
  refine h.settle (fun i parameter => ?_) fun i => ⟨fun u => ?_, fun ⟨u, hne⟩ => ?_⟩
  · obtain ⟨v, hv⟩ := h.listed i ((isEventParameter_attached space').1 parameter)
    have keeps : x.symbols.Keeps Symbol.name
        (x.symbols.update s fun s => { s with attached := true }) :=
      Arena.keeps_update fun _ _ => rfl
    obtain ⟨v', hv', -⟩ := keeps i v hv
    exact ⟨v', hv'⟩
  · have pending := (isPending_attached space').1 u.pending
    exact ⟨⟨pending.1, mt (isEventParameter_attached space').2 u.free⟩, pending.2⟩
  · exact ⟨(isPending_attached space').2 ⟨u.pending, hne⟩,
      mt (isEventParameter_attached space').1 u.free⟩

theorem listed_withSigned (isEvent : x.IsEvent event) (listed : x.Listed)
    (found : ∃ v, x.symbols.get? s = some v) : (x.withSigned event s).Listed := by
  have kept : ∀ {i}, (∃ v, x.symbols.get? i = some v) →
      ∃ v, (x.withSigned event s).symbols.get? i = some v := by
    rintro i ⟨v, hv⟩
    obtain ⟨v', hv', -⟩ := keeps_signed Symbol.attached_signed i v hv
    exact ⟨v', hv'⟩
  intro i parameter
  rcases (isEventParameter_withSigned isEvent).1 parameter with old | rfl
  · exact kept (listed i old)
  · exact kept found

theorem InHand.sign (h : InHand U x (some (s, space))) (isEvent : x.IsEvent event) :
    InHand U (x.withSigned event s) none := by
  refine h.settle (listed_withSigned isEvent h.listed h.held.pending.found) fun i =>
    ⟨fun u => ?_, fun ⟨u, hne⟩ => ?_⟩
  · have free := mt (isEventParameter_withSigned isEvent).2 u.free
    exact ⟨⟨isPending_withSigned.1 u.pending, fun old => free (.inl old)⟩,
      fun hi => free (.inr hi)⟩
  · refine ⟨isPending_withSigned.2 u.pending, fun parameter => ?_⟩
    exact ((isEventParameter_withSigned isEvent).1 parameter).elim u.free hne

theorem isEvent_iff : x.IsEvent event ↔ x.HasSpace event .event := by
  constructor
  · rintro ⟨v, ps, hv, kind⟩
    exact ⟨v, hv, by rw [kind]; rfl⟩
  · rintro ⟨v, hv, hspace⟩
    cases hk : v.kind with
    | event ps => exact ⟨v, ps, hv, hk⟩
    | tableBuffer b =>
      rw [hk] at hspace
      simp [SymbolKind.space?] at hspace
      split at hspace <;> cases hspace
    | _ =>
      rw [hk] at hspace
      cases hspace

theorem Effect.hasSpace {d : Deed} (h : Effect env w d w') (has : w.index.HasSpace s space) :
    w'.index.HasSpace s space := by
  have keeps : w.index.symbols.Keeps (fun v => v.kind.space?) w'.index.symbols := by
    cases h with
    | make => exact Arena.keeps_push _ _ _
    | attach => exact Arena.keeps_update fun _ _ => rfl
    | sign | enlist =>
      refine Arena.keeps_update fun v _ => ?_
      cases hk : v.kind <;> simp [Symbol.signed, Symbol.enlisted, SymbolKind.space?, hk]
    | relocate => exact Arena.keeps_update fun _ _ => rfl
    | turn | announce | take | load => exact .refl _ _
  obtain ⟨v, hv, hspace⟩ := has
  obtain ⟨v', hv', same⟩ := keeps s v hv
  exact ⟨v', hv', same.trans hspace⟩

theorem InHand.aside {d : Deed} (h : InHand U w.index o) (effect : Effect env w d w')
    (aside : d.isAside) : InHand U w'.index o := by
  have same : SettledAlike w.index w'.index := by
    cases effect with
    | make | attach | sign => cases aside
    | enlist r s mode => exact settledAlike_update (fun _ => Symbol.settlement_enlisted mode) rfl
    | relocate r n =>
      exact settledAlike_update (f := fun s => { s with definitionNode := some n })
        (fun _ => rfl) rfl
    | turn | announce | take | load => exact settledAlike_same rfl
  exact h.alike same effect.hasSpace

theorem InHand.made (h : InHand U w.index none) (effect : Effect env w (.make s space) w') :
    InHand U w'.index (some (s, space)) := by
  cases effect with
  | make pending named root bare => exact h.make pending named bare

theorem InHand.attached (h : InHand U w.index (some (s, space)))
    (effect : Effect env w (.attach s) w') : InHand U w'.index none := by
  cases effect with
  | attach found leads => exact h.attach _ _

theorem InHand.signed (h : InHand U w.index (some (s, space)))
    (effect : Effect env w (.sign event s) w') (isEvent : w.index.IsEvent event) :
    InHand U w'.index none := by
  cases effect with
  | sign => exact h.sign isEvent

/-- Deeds that handle the symbol in hand are proper. -/
theorem Handles.properly (h : Handles o ds o') (log : Log env l w ds w')
    (hand : InHand U w.index o)
    (events : ∀ event s, .sign event s ∈ ds → w.index.HasSpace event .event) :
    Properly env w ds w' ∧ InHand U w'.index o' := by
  have all : ∀ {v v'}, Calm l v v' → Calm .all v v' :=
    fun calm => calm.mono (fun _ _ => trivial) fun _ => trivial
  -- the events are still there after the first deed
  have later : ∀ {v v₁ v₂ : Walk} {d : Deed} {ds : List Deed}, Calm l v v₁ → Effect env v₁ d v₂ →
      (∀ event s, .sign event s ∈ d :: ds → v.index.HasSpace event .event) →
      ∀ event s, .sign event s ∈ ds → v₂.index.HasSpace event .event :=
    fun before effect events event s hmem =>
      effect.hasSpace (before.hasSpace (events event s (List.mem_cons_of_mem _ hmem)))
  induction h generalizing w with
  | nil o =>
    have calm := Log.nil_iff.1 log
    exact ⟨.calm (all calm), hand.calm calm⟩
  | make rest ih =>
    cases log with
    | deed before effect log =>
      obtain ⟨properly, last⟩ :=
        ih log ((hand.calm before).made effect) (later before effect events)
      exact ⟨.deed (all before) trivial effect properly, last⟩
  | attach rest ih =>
    cases log with
    | deed before effect log =>
      have held := hand.calm before
      obtain ⟨properly, last⟩ := ih log (held.attached effect) (later before effect events)
      exact ⟨.deed (all before) held.held effect properly, last⟩
  | sign fits rest ih =>
    cases log with
    | deed before effect log =>
      have held := hand.calm before
      have isEvent := isEvent_iff.2 (before.hasSpace (events _ _ List.mem_cons_self))
      obtain ⟨properly, last⟩ := ih log (held.signed effect isEvent) (later before effect events)
      exact ⟨.deed (all before) ⟨isEvent, _, (held.apart _ _ rfl).2, .inl ⟨held.held, fits⟩⟩
        effect properly, last⟩
  | @aside d ds o o' aside rest ih =>
    cases log with
    | deed before effect log =>
      obtain ⟨properly, last⟩ := ih log ((hand.calm before).aside effect aside)
        (later before effect events)
      refine ⟨.deed (all before) ?_ effect properly, last⟩
      cases d <;> trivial

end InHand

end Walk

end AblResolve
