import AblResolve.Proofs.Uses
/-!
The accounts of references. At every moment of a walk, the count of a symbol has grown by the uses
that the nodes visited so far have come to stand for. Only the use of a field that is passed as a
handle is counted later than the field is found, by the node above it.
-/
namespace AblResolve

namespace Walk

open ParseTree UnitIndex

/-- From `w` to `w'`, the counts have grown by the uses that nodes have come to stand for. -/
def Balanced (env : Env) (w w' : Walk) : Prop :=
  ∀ s q, w'.noted s q + uses env.tree w s q = w.noted s q + uses env.tree w' s q

/-- The same, but for the use of node `n` as a handle. -/
def BalancedBut (env : Env) (n : NodeId) (w w' : Walk) : Prop :=
  ∀ s q, w'.noted s q + uses env.tree w s q + (usesHandle env.tree s q n (w'.notes.get n)).toNat =
    w.noted s q + uses env.tree w' s q + (usesHandle env.tree s q n (w.notes.get n)).toNat

section Balance

variable {env : Env} {n k : NodeId} {w w' w'' : Walk}

theorem Balanced.trans (h : Balanced env w w') (h' : Balanced env w' w'') :
    Balanced env w w'' := by
  intro s q
  have := h s q
  have := h' s q
  omega

theorem BalancedBut.trans (h : BalancedBut env n w w') (h' : BalancedBut env n w' w'') :
    BalancedBut env n w w'' := by
  intro s q
  have := h s q
  have := h' s q
  omega

theorem Balanced.but (h : Balanced env w w')
    (same : env.tree.kind n = .field → (w'.notes.get n).symbol = (w.notes.get n).symbol) :
    BalancedBut env n w w' := by
  intro s q
  have hsame : usesHandle env.tree s q n (w'.notes.get n) =
      usesHandle env.tree s q n (w.notes.get n) := by
    by_cases hn : env.tree.kind n = .field
    · simp only [usesHandle, same hn]
    · rw [usesHandle_of_kind hn, usesHandle_of_kind hn]
  rw [hsame, h s q]

theorem BalancedBut.of_kind (h : BalancedBut env k w w') (hk : env.tree.kind k ≠ .field) :
    Balanced env w w' := by
  intro s q
  have := h s q
  rwa [usesHandle_of_kind hk, usesHandle_of_kind hk] at this

/-- One name is found, and its uses are counted. -/
theorem balancedBut_of_found (hk : k.val < env.tree.size) (hw : w.InRange)
    (ext : w.index.Extends w'.index)
    (same : ∀ m, m ≠ k → meaning (w'.notes.get m) = meaning (w.notes.get m))
    (clean : ∀ s q, usesFound env.tree w.index s q k (w.notes.get k) = 0)
    (found : ∀ s q, w'.noted s q =
      w.noted s q + usesFound env.tree w'.index s q k (w'.notes.get k)) :
    BalancedBut env k w w' := by
  intro s q
  have hchange := uses_of_change (t := env.tree) (s := s) (q := q) hk fun m hm =>
    .of_meaning (same m hm) ext hw
  unfold usesAt at hchange
  rw [clean s q] at hchange
  have := found s q
  omega

end Balance

/-! ### Moves and turns -/

section Runs

variable {env : Env} {n : NodeId} {w w' : Walk}

theorem Runs.noted (h : Runs env n w w') (s : SymbolId) (q : Qualifier) :
    w'.noted s q = w.noted s q := by
  unfold Walk.noted
  induction h with
  | refl => rfl
  | tail _ step ih =>
    rw [← ih]
    rcases step with move | turn
    · cases move with
      | index change => rw [change.references]
      | _ => rfl
    · rw [turn.references]

theorem Runs.balanced (h : Runs env n w w') (hw : w.InRange)
    (field : env.tree.kind n = .field → w'.notes = w.notes) : Balanced env w w' := by
  intro s q
  have hsame : ∀ m, SameUses env.tree s q w w' m := by
    intro m
    by_cases hm : m ≠ n ∨ (env.tree.kind m).isName
    · exact .of_meaning (h.meaning hm) h.extends hw
    · obtain ⟨rfl, hname⟩ : m = n ∧ (env.tree.kind m).isName = false := by simpa using hm
      by_cases hfield : env.tree.kind m = .field
      · exact .of_meaning (by rw [field hfield]) h.extends hw
      · exact .of_kind hname hfield
  rw [h.noted, uses_congr hsame]

theorem Readies.balanced {c : NodeId} (h : Readies env n c w w') (hw : w.InRange)
    (field : env.tree.kind n = .field → w'.notes = w.notes) : Balanced env w w' := by
  obtain ⟨v, tells, runs⟩ := h
  obtain ⟨qualifiers, hints, rfl⟩ := tells.eq
  exact runs.balanced hw field

theorem Moves.balancedBut (h : Moves env n w w') (hw : w.InRange) (hlt : n.val < env.tree.size)
    (hn : env.tree.kind n = .field) (hnone : (w.notes.get n).qualifier = none) :
    BalancedBut env n w w' := by
  have hwidget : env.tree.kind n ≠ .widgetName := by simp [hn]
  refine balancedBut_of_found hlt hw h.runs.extends (fun m hm => h.runs.meaning (.inl hm)) ?_ ?_
  · exact fun s q => usesFound_of_qualifier hnone hwidget
  · intro s q
    rw [h.runs.noted, usesFound_of_qualifier ((h.runs.qualifier hn).trans hnone) hwidget]
    rfl

end Runs

/-! ### References -/

section Refer

variable {env : Env} {n : NodeId} {w w' : Walk} {ref : Reference}

theorem get_references_counted {x : UnitIndex} {i : SymbolId} (h : i.val < x.symbols.size)
    (p q : Qualifier) (s : SymbolId) : ((x.counted i p).references s).get q =
      (x.references s).get q + (decide (i = s ∧ p = q)).toNat := by
  rw [references_counted h]
  by_cases hi : i = s
  · rw [if_pos hi, ReferenceCounts.get_note]
    by_cases hp : p = q <;> simp [hi, hp]
  · simp [hi]

theorem get_references_countedField {x : UnitIndex} (hx : x.Coherent) {i : SymbolId}
    (h : i.val < x.symbols.size) (p q : Qualifier) (s : SymbolId) :
    ((x.countedField i p).references s).get q = (x.references s).get q +
      (decide (i = s ∧ p = q)).toNat +
      (decide (p = q ∧ (x.asFieldBuffer? i).any (·.buffer = s))).toNat := by
  unfold countedField
  cases hf : x.asFieldBuffer? i with
  | none =>
    dsimp only
    rw [get_references_counted h]
    simp
  | some f =>
    obtain ⟨symbol, hsymbol, hkind⟩ := asFieldBuffer?_eq_some.1 hf
    have ok := (hx.symbols hsymbol).kind
    rw [hkind] at ok
    have hbuffer : f.buffer.val < (x.counted i p).symbols.size :=
      (extends_counted _ _ _).lt_symbols (IsBuffer.lt_size ok.1)
    dsimp only
    rw [get_references_counted hbuffer, get_references_counted h]
    simp only [Option.any_some, decide_eq_true_eq, and_comm]

/-- A reference counts the uses that it writes down. -/
theorem Refer.balancedBut (h : Refer env n w ref w') (hs : Sound w) (hw : w.InRange)
    (hroot : n ≠ root) (hlt : n.val < env.tree.size)
    (clean : ∀ k, Names env n k → ∀ s q,
      usesFound env.tree w.index s q k (w.notes.get k) = 0) :
    BalancedBut env n w w' := by
  have ext := h.extends
  have own : (env.tree.kind n).isName ∨ env.tree.kind n = .field →
      env.tree.kind n ≠ .identifier →
      (∀ m, m ≠ n → meaning (w'.notes.get m) = meaning (w.notes.get m)) →
      (∀ s q, w'.noted s q = w.noted s q +
        usesFound env.tree w'.index s q n (w'.notes.get n)) → BalancedBut env n w w' := by
    intro hkind hidentifier same found
    exact balancedBut_of_found hlt hw ext same (clean n (.own hkind hidentifier)) found
  cases h with
  | record bufferScope abbreviated kind isBuffer found sees =>
    refine own (by simp [kind]) (by simp [kind]) (fun m hm => ?_) fun s q => ?_
    · rw [Annotations.get_update_of_ne hm.symm]
    · unfold noted
      rw [get_references_counted sees.lt_size, Annotations.get_update_self]
      simp [usesFound, usesName, usesBuffer, usesWidget, kind, hroot]
  | field store bufferScope unqualified abbreviated kind leads =>
    rename_i p hint i
    have found := leads.attached.lt_size
    refine own (by simp [kind]) (by simp [kind]) (fun m hm => ?_) fun s q => ?_
    · rw [Annotations.get_update_of_ne hm.symm]
    · unfold noted
      rw [get_references_countedField hs.coherent found, Annotations.get_update_self]
      simp only [usesFound, usesName, usesBuffer, usesWidget, kind, Option.bind_some,
        (extends_countedField w.index i p).asFieldBuffer?_eq found]
      simp [hroot, Nat.add_assoc]
  | widget kind sees =>
    refine own (by simp [kind]) (by simp [kind]) (fun m hm => ?_) fun s q => ?_
    · rw [Annotations.get_update_of_ne hm.symm]
    · unfold noted
      rw [get_references_counted sees.lt_size, Annotations.get_update_self]
      simp [usesFound, usesName, usesBuffer, usesWidget, kind, hroot, eq_comm (a := q)]
  | member kind child identifier sees attached plain =>
    rename_i c p i
    have hcroot := ne_root_of_mem_children child
    have hfield : env.tree.kind n ≠ .field := by simp [kind]
    refine Balanced.but (BalancedBut.of_kind (k := c) ?_ (by simp [identifier])) fun h =>
      absurd h hfield
    refine balancedBut_of_found (lt_of_mem_children child).2 hw ext (fun m hm => ?_)
      (clean c (.member child identifier)) fun s q => ?_
    · rw [Annotations.get_update_of_ne hm.symm]
    · unfold noted
      rw [get_references_counted sees.lt_size, Annotations.get_update_self]
      simp [usesFound, usesName, usesBuffer, usesWidget, identifier, hcroot]

/-- A vain lookup counts nothing. -/
theorem Miss.balancedBut {h : TableHint} (miss : Miss env n w h w') (hw : w.InRange) :
    BalancedBut env n w w' := by
  refine Balanced.but (fun s q => ?_) fun _ => by rw [miss.notes]
  have huses : uses env.tree w' s q = uses env.tree w s q :=
    uses_congr fun m => .of_meaning (by rw [miss.notes]) miss.extends hw
  have hnoted : w'.noted s q = w.noted s q := by cases miss <;> rfl
  rw [huses, hnoted]

end Refer

/-! ### Visits -/

section Visit

variable {env : Env} {n : NodeId} {w₀ w w' : Walk}

/-- The moves that come before a reference count nothing as found. -/
theorem Fresh.usesFound {k : NodeId} (fresh : Fresh env n w) (moves : Moves env n w w')
    (names : Names env n k) (s : SymbolId) (q : Qualifier) :
    usesFound env.tree w'.index s q k (w'.notes.get k) = 0 := by
  cases names with
  | own kind apart =>
    have hnone := fresh n (.refl n) (.inr apart)
    rcases kind with kind | kind
    · exact usesFound_of_meaning ((moves.runs.meaning (.inr kind)).trans hnone)
    · refine usesFound_of_qualifier ((moves.runs.qualifier kind).trans ?_) (by simp [kind])
      exact congrArg (·.2.1) hnone
  | member child identifier =>
    have hne := ne_of_mem_children child
    refine usesFound_of_meaning ((moves.runs.meaning (.inl hne)).trans ?_)
    exact fresh k (within_of_mem_children child) (.inl hne)

theorem enter_balancedBut {plan : Plan env.tree n} (hs : Sound w) (hw : w.InRange)
    (fresh : Fresh env n w) (hroot : n ≠ root) (hlt : n.val < env.tree.size)
    (henter : enter env n w = .ok plan w') : BalancedBut env n w w' := by
  have refers : ∀ {v ref}, Moves env n w v → Refer env n v ref w' → BalancedBut env n v w' :=
    fun moves refer => refer.balancedBut (moves.runs.sound hs) (moves.runs.inRange hw) hroot hlt
      fun _ names => fresh.usesFound moves names
  by_cases hfield : env.tree.kind n = .field
  · have hnone : (w.notes.get n).qualifier = none :=
      congrArg (·.2.1) (fresh n (.refl n) (.inr (by simp [hfield])))
    rw [enter_field hfield] at henter
    obtain ⟨-, -, outcome, resolves⟩ := (ends_enterField_resolves env n hs hfield).ok henter
    cases resolves with
    | input keyword moves | tolerated keyword lacks tolerant moves =>
      exact moves.balancedBut hw hlt hfield hnone
    | found keyword moves refer =>
      exact (moves.balancedBut hw hlt hfield hnone).trans (refers moves refer)
    | missing keyword moves miss =>
      exact (moves.balancedBut hw hlt hfield hnone).trans
        (miss.balancedBut (moves.runs.inRange hw))
  · have still : ∀ {v}, Runs env n w v → BalancedBut env n w v := fun runs =>
      (runs.balanced hw fun h => absurd h hfield).but fun h => absurd h hfield
    cases ((ends_enter env n hs).ok henter).enters with
    | plain runs => exact still runs
    | refer moves expects refer => exact (still moves.runs).trans (refers moves refer)
    | miss moves miss =>
      exact (still moves.runs).trans (miss.balancedBut (moves.runs.inRange hw))

/-- Whether an action counts a use of `s` as `q`. -/
def Action.counts (w : Walk) (s : SymbolId) (q : Qualifier) : Action → Bool
  | .countUse c p => (w.notes.get c).symbol = some s ∧ p = q
  | _ => false

/-- One action notes the use that it counts, and no more. -/
theorem Performs.balance {action : Action} (h : Performs env n w action w') (hw : w.InRange)
    (hn : env.tree.kind n ≠ .field) (s : SymbolId) (q : Qualifier) :
    w'.noted s q + uses env.tree w s q =
      w.noted s q + uses env.tree w' s q + (action.counts w s q).toNat := by
  cases h with
  | runs quiet runs =>
    have hnot : action.counts w s q = false := by
      cases action with
      | countUse c p => cases quiet
      | _ => rfl
    rw [hnot]
    exact runs.balanced hw (fun h => absurd h hn) s q
  | bind binds =>
    rename_i r b
    have huses : uses env.tree (w.boundStrongly r b) s q = uses env.tree w s q :=
      uses_congr fun m => .of_meaning BindsStrongly.meaning binds.change.extends hw
    have hnoted : (w.boundStrongly r b).noted s q = w.noted s q := by
      unfold noted
      exact congrArg (·.get q) (binds.change.references s)
    rw [huses, hnoted]
    rfl
  | unused none => simp [Action.counts, none]
  | use some found =>
    rename_i c p i
    have hnoted : ({ w with index := w.index.counted i p } : Walk).noted s q =
        w.noted s q + (decide (i = s ∧ p = q)).toNat := get_references_counted found p q s
    have huses : uses env.tree { w with index := w.index.counted i p } s q =
        uses env.tree w s q :=
      uses_congr fun m => .of_meaning rfl (extends_counted _ _ _) hw
    have hcounts : Action.counts w s q (.countUse c p) = decide (i = s ∧ p = q) := by
      simp only [Action.counts, some, Option.some.injEq]
    rw [hnoted, huses, hcounts]
    omega

/-- What an action counts is not changed by an action of another node. -/
theorem Performs.counts {action a : Action} (h : Performs env n w action w')
    (apart : ∀ c p, a = .countUse c p → c ≠ n) (s : SymbolId) (q : Qualifier) :
    a.counts w' s q = a.counts w s q := by
  cases a with
  | countUse c p =>
    have hsymbol : (w'.notes.get c).symbol = (w.notes.get c).symbol :=
      congrArg (·.1) (h.meaning (.inl (apart c p rfl)))
    simp only [Action.counts, hsymbol]
  | _ => rfl

theorem Performed.balance {actions : List Action} (h : Performed env n w actions w')
    (hw : w.InRange) (hn : env.tree.kind n ≠ .field)
    (apart : ∀ c p, .countUse c p ∈ actions → c ≠ n) (s : SymbolId) (q : Qualifier) :
    w'.noted s q + uses env.tree w s q =
      w.noted s q + uses env.tree w' s q + actions.countP (Action.counts w s q) := by
  induction h with
  | nil => rfl
  | cons first rest ih =>
    rename_i w w₁ w' action actions
    have hrest := ih (first.inRange hw) fun c p hc => apart c p (List.mem_cons_of_mem _ hc)
    have hsame : actions.countP (Action.counts w₁ s q) = actions.countP (Action.counts w s q) := by
      refine List.countP_congr fun a ha => ?_
      rw [first.counts (fun c p heq => apart c p (List.mem_cons_of_mem _ (heq ▸ ha)))]
    have hfirst := first.balance hw hn s q
    have hone : (if action.counts w s q = true then 1 else 0) = (action.counts w s q).toNat := by
      cases action.counts w s q <;> rfl
    rw [hsame] at hrest
    rw [List.countP_cons, hone]
    omega

/-- The mode by which a handle is passed, if it writes. -/
theorem handleMode_eq_iff (env : Env) (n : NodeId) (q : Qualifier) :
    handleMode env n = q ∧ (handleMode env n).isWrite ↔
      q.isWrite ∧ (env.tree.parent? n).any fun argument =>
        env.tree.kind argument = .runParameter ∧ argumentQualifier env.tree argument = q := by
  unfold handleMode
  cases env.tree.parent? n with
  | none => cases q <;> simp [Qualifier.isWrite]
  | some p =>
    by_cases hp : env.tree.kind p = .runParameter
    · simp only [hp, if_true, Option.any_some, true_and, decide_eq_true_eq]
      rw [and_comm]
      exact and_congr_left fun h => by rw [h]
    · cases q <;> simp [hp, Qualifier.isWrite]

/-- The further uses that are counted after the visit of a child are those as a handle. -/
theorem countP_handleUses {c : NodeId} (hc : c ∈ env.tree.children n) (s : SymbolId)
    (q : Qualifier) : (handleUses env n c).countP (Action.counts w s q) =
      (usesHandle env.tree s q c (w.notes.get c)).toNat := by
  have hhandle : (env.tree.kind n).isHandle ↔
      env.tree.kind n = .parameterTableHandle ∨ env.tree.kind n = .parameterDatasetHandle := by
    cases env.tree.kind n <;> simp [NodeKind.isHandle]
  have hmode := handleMode_eq_iff env n q
  unfold handleUses usesHandle
  rw [parent?_of_mem_children hc]
  simp only [Option.any_some, decide_eq_true_eq, hhandle]
  split
  · rename_i hcond
    obtain ⟨hkind, hfield, hwrite⟩ := hcond
    rw [List.countP_singleton, Action.counts]
    simp only [hkind, hfield, true_and, ← hmode, hwrite, and_true]
    by_cases h : (w.notes.get c).symbol = some s ∧ handleMode env n = q <;> simp [h]
  · rename_i hcond
    rw [List.countP_nil, eq_comm, Bool.toNat_eq_zero, decide_eq_false_iff_not]
    rintro ⟨hfield, -, hwrite, hkind, hargument⟩
    exact hcond ⟨hkind, hfield, (hmode.2 ⟨hwrite, hargument⟩).2⟩

/-- What is done after the visit of a child counts its use as a handle. -/
theorem Performed.balance_child {c : NodeId} {actions : List Action}
    (h : Performed env n w actions w') (hw : w.InRange) (hc : c ∈ env.tree.children n)
    (field : env.tree.kind n = .field → w'.notes = w.notes)
    (huses : actions.filter (·.isUse) = handleUses env n c) (s : SymbolId) (q : Qualifier) :
    w'.noted s q + uses env.tree w s q = w.noted s q + uses env.tree w' s q +
      (usesHandle env.tree s q c (w.notes.get c)).toNat := by
  rw [← countP_handleUses hc, ← huses, List.countP_filter]
  by_cases hn : env.tree.kind n = .field
  · have quiet : ∀ a ∈ actions, a.isUse = false := by
      rw [handleUses_eq_nil (by simp [hn, NodeKind.isHandle])] at huses
      simpa using huses
    have hnone : actions.countP (fun a => Action.counts w s q a && a.isUse) = 0 := by
      refine List.countP_eq_zero.2 fun a ha => ?_
      simp [quiet a ha]
    rw [hnone]
    exact (h.runs_of_kind (by simp [hn]) quiet).balanced hw field s q
  · have hsame : ∀ a, (Action.counts w s q a && a.isUse) = Action.counts w s q a := by
      intro a
      cases a <;> simp [Action.counts, Action.isUse]
    simp only [hsame]
    refine h.balance hw hn (fun c' p hmem => ?_) s q
    have hmem' : .countUse c' p ∈ handleUses env n c := by
      rw [← huses]
      exact List.mem_filter.2 ⟨hmem, rfl⟩
    unfold handleUses at hmem'
    split at hmem'
    · cases List.mem_singleton.1 hmem'
      exact ne_of_mem_children hc
    · simp at hmem'

theorem Tour.balanced {steps : List (Step env.tree n)} (tour : Tour env n w₀ steps w w')
    (hw₀ : w₀.InRange) (hw : w.InRange)
    (fresh : ∀ {c w₁}, Began env n w₀ c w₁ → Fresh env c w₁)
    (visits : ∀ c ∈ env.tree.children n, ∀ v v', Sound v → v.InRange → Fresh env c v →
      visit env c v = .ok () v' → BalancedBut env c v v') : Balanced env w w' := by
  induction tour with
  | leave runs field => exact runs.balanced hw field
  | step readies began hvisit visited after huses once field hentries idle listed tour ih =>
    rename_i step rest w w₁ w₂ w₃ w'
    have hchild := step.child.property
    have hw₁ := began.inRange hw₀
    have hw₂ := visited.inRange hw₁
    have hc := visits _ hchild w₁ w₂ began.sound hw₁ (fresh began) hvisit
    have hlater := ih (after.isLocal.inRange hw₂)
    refine (readies.balanced hw fun h => (field h).1).trans (Balanced.trans ?_ hlater)
    intro s q
    have hbelow := hc s q
    have hfirst : usesHandle env.tree s q step.child.val (w₁.notes.get step.child.val) = false := by
      by_cases hkind : env.tree.kind step.child.val = .field
      · have hnone := (fresh began).symbol (.refl _) (.inr (by simp [hkind]))
        simp [usesHandle, hnone]
      · exact usesHandle_of_kind hkind
    have hafter := after.balance_child hw₂ hchild (fun h => (field h).2) huses s q
    simp only [hfirst, Bool.toNat_false] at hbelow
    omega

end Visit

theorem visit_balancedBut (env : Env) (n : NodeId) {w w' : Walk} (hroot : n ≠ root)
    (hlt : n.val < env.tree.size) (hs : Sound w) (hw : w.InRange) (fresh : Fresh env n w)
    (hok : visit env n w = .ok () w') : BalancedBut env n w w' := by
  obtain ⟨plan, v, henter, admitted, tour⟩ := visit_tour hs hok
  have hv := admitted.enters.inRange hw
  have hbelow : Balanced env v w' := by
    refine tour.balanced hw hv (fun began => began.fresh fresh) fun c hc v v' hs hw fresh hok => ?_
    exact visit_balancedBut env c (ne_root_of_mem_children hc) (lt_of_mem_children hc).2 hs hw fresh
      hok
  refine (enter_balancedBut hs hw fresh hroot hlt henter).trans (hbelow.but fun hfield => ?_)
  have same := tour.keep (m := n) (.inr (.inr hfield)) fun c hc => by
    obtain ⟨s, -, rfl⟩ := List.mem_map.1 hc
    exact .inl (not_within_of_mem_children s.child.property)
  exact congrArg (·.1) same
termination_by env.tree.size - n.val
decreasing_by
  have := lt_of_mem_children hc
  omega

/-! ### Units -/

section Unit

variable {env : Env} {w : Walk}

theorem uses_start (size : Nat) (s : SymbolId) (q : Qualifier) :
    uses env.tree (start env (.blank size)) s q = 0 := by
  refine uses_eq_zero fun n => ?_
  by_cases hn : n = root
  · subst hn
    rw [start, Annotations.get_update_self, Annotations.get_blank]
    simp [usesAt, usesFound, usesName, usesBuffer, usesWidget, usesHandle, parent?_root]
  · rw [start, Annotations.get_update_of_ne (Ne.symm hn), Annotations.get_blank]
    simp [usesAt, usesFound, usesName, usesBuffer, usesWidget, usesHandle]

theorem noted_start (notes : Annotations) (s : SymbolId) (q : Qualifier) :
    (start env notes).noted s q = 0 := by
  have empty : (start env notes).index.references s = {} := by
    unfold references referencesIn
    cases hs : (start env notes).index.symbols.get? s with
    | none => rfl
    | some symbol =>
      obtain ⟨-, rfl⟩ := start_arena hs
      rfl
  rw [noted, empty]
  cases q <;> rfl

/-- When a walk over a tree on which nothing was written succeeds, the counts are the uses that the
nodes stand for. -/
theorem visitUnit_noted {size : Nat} (hok : visitUnit env (start env (.blank size)) = .ok () w)
    (s : SymbolId) (q : Qualifier) : w.noted s q = uses env.tree w s q := by
  have inRange := inRange_start env size
  have balanced : Balanced env (start env (.blank size)) w := by
    refine (tour_unit env _ hok).balanced inRange inRange Began.fresh_unit ?_
    intro c hc v v' hs hw fresh hok
    exact visit_balancedBut env c (ne_root_of_mem_children hc) (lt_of_mem_children hc).2 hs hw fresh
      hok
  have := balanced s q
  rw [uses_start, noted_start] at this
  omega

end Unit

end Walk

namespace CompilationUnit

open UnitIndex Walk

/-- Reference accounting is exact: after an analysis of a tree on which nothing was written, a
symbol has been counted once for every use that the tree shows of it. -/
theorem analyze_ofTree_references (catalog : Catalog) (types : TypeRegistry) (options : Options)
    (tree : ParseTree) {index : UnitIndex} {u : CompilationUnit}
    (hok : (ofTree tree).analyze catalog types options = (.ok index, u)) (s : SymbolId)
    (q : Qualifier) :
    (index.references s).get q =
      tree.nodes.ids.countP (fun n => usesName tree s q n (u.notes.get n)) +
      tree.nodes.ids.countP (fun n => usesBuffer tree index s q n (u.notes.get n)) +
      tree.nodes.ids.countP (fun n => usesWidget tree s q n (u.notes.get n)) +
      tree.nodes.ids.countP (fun n => usesHandle tree s q n (u.notes.get n)) := by
  obtain ⟨w, hw, rfl, rfl⟩ := analyze_ok catalog types options hok
  exact visitUnit_noted hw s q

/-- In the sample, the table is used by the record, and by the field as its buffer. -/
theorem analyze_ofTree_references_sample :
    ∃ index u, (ofTree sampleTree).analyze {} {} {} = (.ok index, u) ∧
      0 < (index.references ⟨1⟩).get .ref ∧
      (index.references ⟨1⟩).get .ref =
        sampleTree.nodes.ids.countP (fun n => usesName sampleTree ⟨1⟩ .ref n (u.notes.get n)) +
        sampleTree.nodes.ids.countP (fun n =>
          usesBuffer sampleTree index ⟨1⟩ .ref n (u.notes.get n)) +
        sampleTree.nodes.ids.countP (fun n => usesWidget sampleTree ⟨1⟩ .ref n (u.notes.get n)) +
        sampleTree.nodes.ids.countP (fun n =>
          usesHandle sampleTree ⟨1⟩ .ref n (u.notes.get n)) := by
  obtain ⟨index, hok⟩ := exists_analyze_ok (u := ofTree sampleTree) {} {} {} (by decide +kernel)
  have accounted := analyze_ofTree_references {} {} {} sampleTree hok ⟨1⟩ .ref
  have found : 0 < sampleTree.nodes.ids.countP fun n => usesName sampleTree ⟨1⟩ .ref n
      (((ofTree sampleTree).analyze {} {} {}).2.notes.get n) := by
    decide +kernel
  exact ⟨index, _, hok, by omega, accounted⟩

end CompilationUnit

end AblResolve
