import AblResolve.Proofs.Keeping
/-!
FORWARD declarations and their bodies. A FUNCTION statement takes up the declaration of its name if
that is the last function of the name that was entered before. If it lists no parameters it
continues in the scope of the declaration; otherwise, and if there is nothing to take up, it has a
scope and a routine of its own. The declarations that wait for a body are at any time those that are
the last function of their name.
-/
namespace AblResolve

/-! ### What is taken up -/

namespace ParseTree

variable (t : ParseTree)

/-- The last of the nodes that is a function with this folded name. -/
def lastFunction? (key : String) (ns : List NodeId) : Option NodeId :=
  ns.reverse.find? fun m => t.kind m = .functionStatement ∧ Text.fold (t.definedName m) = key

/-- The function before node `n` whose name is the same up to the case of letters, if it is a
FORWARD declaration: of such functions the last among the nodes, which are in the order in which
they are entered. A FORWARD declaration itself takes up none. -/
def declaration? (ns : List NodeId) (n : NodeId) : Option NodeId :=
  if t.hasKeyword n .forwards then none
  else (t.lastFunction? (Text.fold (t.definedName n)) (ns.takeWhile (· ≠ n))).filter
    fun m => t.hasKeyword m .forwards

/-- The FORWARD node that the routine of a function is given. -/
def forwardNode? (ns : List NodeId) (n : NodeId) : Option NodeId :=
  if t.hasKeyword n .forwards then some n else t.declaration? ns n

section Nodes

variable {t} {key : String} {ns ms : List NodeId} {n m : NodeId}

theorem takeWhile_ne_append (h : n ∈ ns) :
    (ns ++ ms).takeWhile (· ≠ n) = ns.takeWhile (· ≠ n) := by
  induction ns with
  | nil => cases h
  | cons k ns ih =>
    by_cases hk : k = n
    · simp [hk]
    · have hmem : n ∈ ns := (List.mem_cons.1 h).resolve_left (Ne.symm hk)
      simpa [hk] using ih hmem

theorem takeWhile_ne_self (h : n ∉ ns) : (ns ++ n :: ms).takeWhile (· ≠ n) = ns := by
  rw [List.takeWhile_append_of_pos, List.takeWhile_cons_of_neg (by simp), List.append_nil]
  intro k hk
  simpa using fun heq : k = n => h (heq ▸ hk)

theorem declaration?_append (h : n ∈ ns) : t.declaration? (ns ++ ms) n = t.declaration? ns n := by
  rw [declaration?, declaration?, takeWhile_ne_append h]

theorem declaration?_concat (hn : n ∉ ns) : t.declaration? (ns ++ [n]) n =
    if t.hasKeyword n .forwards then none
    else (t.lastFunction? (Text.fold (t.definedName n)) ns).filter
      fun m => t.hasKeyword m .forwards := by
  rw [declaration?, takeWhile_ne_self hn]

theorem forwardNode?_append (h : n ∈ ns) : t.forwardNode? (ns ++ ms) n = t.forwardNode? ns n := by
  rw [forwardNode?, forwardNode?, declaration?_append h]

theorem mem_of_lastFunction? (h : t.lastFunction? key ns = some m) :
    m ∈ ns ∧ t.kind m = .functionStatement ∧ Text.fold (t.definedName m) = key := by
  have holds := List.find?_some h
  exact ⟨List.mem_reverse.1 (List.mem_of_find?_eq_some h), by simpa using holds⟩

theorem lastFunction?_concat : t.lastFunction? key (ns ++ [n]) =
    if t.kind n = .functionStatement ∧ Text.fold (t.definedName n) = key then some n
    else t.lastFunction? key ns := by
  rw [lastFunction?, List.reverse_append, List.reverse_singleton, List.singleton_append,
    List.find?_cons]
  split <;> simp_all [lastFunction?]

/-- A declaration that is taken up is a FORWARD of the same name, entered before. -/
theorem of_declaration? (h : t.declaration? ns n = some m) :
    t.hasKeyword n .forwards = false ∧ t.hasKeyword m .forwards = true ∧
      t.lastFunction? (Text.fold (t.definedName n)) (ns.takeWhile (· ≠ n)) = some m := by
  unfold declaration? at h
  split at h
  · cases h
  · rename_i hbody
    obtain ⟨hlast, hforward⟩ := Option.filter_eq_some_iff.1 h
    exact ⟨by simpa using hbody, hforward, hlast⟩

/-- Between a declaration and the body that takes it up there is no function of the name. -/
theorem lastFunction?_of_mem (hm : t.lastFunction? key ns = some m)
    (nodup : ns.Nodup) {before after : List NodeId} (split : ns = before ++ m :: after) :
    ∀ k ∈ after, t.kind k = .functionStatement → Text.fold (t.definedName k) ≠ key := by
  subst split
  intro k hk hkind hkey
  rw [lastFunction?, List.reverse_append, List.reverse_cons, List.append_assoc,
    List.find?_append] at hm
  have found : (after.reverse.find? fun m =>
      decide (t.kind m = .functionStatement ∧ Text.fold (t.definedName m) = key)).isSome :=
    List.find?_isSome.2 ⟨k, List.mem_reverse.2 hk, by simp [hkind, hkey]⟩
  obtain ⟨k', hk'⟩ := Option.isSome_iff_exists.1 found
  rw [hk', Option.some_or] at hm
  cases hm
  have mem := List.mem_reverse.1 (List.mem_of_find?_eq_some hk')
  exact (List.nodup_cons.1 (List.nodup_append.1 nodup).2.1).1 mem

theorem takeWhile_ne_split {k : NodeId} (h : n ∈ ns.takeWhile (· ≠ k)) :
    ∃ after, ns.takeWhile (· ≠ k) = ns.takeWhile (· ≠ n) ++ n :: after := by
  obtain ⟨front, after, hfront, hn⟩ := List.eq_append_cons_of_mem h
  have whole : ns.takeWhile (· ≠ k) ++ ns.dropWhile (· ≠ k) = ns := List.takeWhile_append_dropWhile
  have same : ns.takeWhile (· ≠ n) = front := by
    rw [← whole, takeWhile_ne_append h, hfront, takeWhile_ne_self hn]
  exact ⟨after, same ▸ hfront⟩

theorem mem_takeWhile_ne {k : NodeId} (hn : n ∈ ns) (hk : k ∈ ns) (hne : n ≠ k) :
    n ∈ ns.takeWhile (· ≠ k) ∨ k ∈ ns.takeWhile (· ≠ n) := by
  obtain ⟨front, after, rfl, hfree⟩ := List.eq_append_cons_of_mem hn
  by_cases hmem : k ∈ front
  · refine .inr ?_
    rwa [takeWhile_ne_self hfree]
  · refine .inl ?_
    have pass : ∀ j ∈ front, decide (j ≠ k) = true := fun j hj => by
      simpa using fun heq : j = k => hmem (heq ▸ hj)
    rw [List.takeWhile_append_of_pos pass, List.takeWhile_cons_of_pos (by simpa using hne)]
    simp

/-- A declaration is taken up once at most. -/
theorem declaration?_injective {n' : NodeId} (nodup : ns.Nodup) (hn : n ∈ ns) (hn' : n' ∈ ns)
    (kind : t.kind n = .functionStatement) (kind' : t.kind n' = .functionStatement)
    (h : t.declaration? ns n = some m) (h' : t.declaration? ns n' = some m) : n = n' := by
  -- if one function stands before the other, it stands between the other and its declaration
  have between : ∀ {n n'}, t.kind n = .functionStatement → t.declaration? ns n = some m →
      t.declaration? ns n' = some m → n ∉ ns.takeWhile (· ≠ n') := by
    intro n n' kind h h' mem
    obtain ⟨-, -, hlast⟩ := of_declaration? h
    obtain ⟨-, -, hlast'⟩ := of_declaration? h'
    obtain ⟨hm, -, hkey⟩ := mem_of_lastFunction? hlast
    obtain ⟨after, hsplit⟩ := takeWhile_ne_split mem
    obtain ⟨front, back, hfront⟩ := List.append_of_mem hm
    rw [hfront, List.append_assoc, List.cons_append] at hsplit
    refine lastFunction?_of_mem hlast' (nodup.sublist (List.takeWhile_sublist _)) hsplit n (by simp)
      kind ?_
    exact hkey.symm.trans (mem_of_lastFunction? hlast').2.2
  by_contra hne
  rcases mem_takeWhile_ne hn hn' hne with mem | mem
  · exact between kind h h' mem
  · exact between kind' h' h mem

end Nodes

end ParseTree

namespace Walk

open UnitIndex ParseTree

variable {env : Env} {n : NodeId} {w w' : Walk}

/-! ### What entering a function does -/

theorem enterScope_ok {i : ScopeId} (hok : enterScope i n w = .ok () w') :
    ∃ scope, w.index.scopes.get? i = some scope ∧ w' = { w with
      scopeStack := i :: w.scopeStack
      blockStack := scope.rootBlock :: w.blockStack
      notes := w.notes.update n fun a =>
        { a with scope := some i, block := some scope.rootBlock } } := by
  unfold enterScope at hok
  obtain ⟨scope, w₁, hscope, hrest⟩ := bind_ok.1 hok
  obtain ⟨found, rfl⟩ := scopeAt_ok.1 hscope
  cases hrest
  exact ⟨scope, found, rfl⟩

theorem openScope_ok {kind : ScopeKind} {i : ScopeId} (hok : openScope kind n w = .ok i w') :
    i = w.index.scopes.next ∧ ∃ parent block, w' = { w with
      index := w.index.withScope parent block kind n none
      scopeStack := i :: w.scopeStack
      blockStack := w.index.blocks.next :: w.blockStack
      notes := w.notes.update n fun a =>
        { a with scope := some i, block := some w.index.blocks.next } } := by
  unfold openScope at hok
  obtain ⟨parent, w₁, hparent, hrest⟩ := bind_ok.1 hok
  obtain ⟨-, rfl⟩ := currentScope_ok hparent
  obtain ⟨block, w₂, hblock, hpush⟩ := bind_ok.1 hrest
  have same : w₂ = w := by
    unfold currentBlock at hblock
    obtain ⟨_, _, hget, hfound⟩ := bind_ok.1 hblock
    cases hget
    cases hstack : w.blockStack <;> rw [hstack] at hfound <;> cases hfound
    rfl
  subst same
  obtain ⟨x, w₃, hx, hmodify⟩ := bind_ok.1 hpush
  cases hx
  obtain ⟨_, w₄, hpushed, henter⟩ := bind_ok.1 hmodify
  cases hpushed
  obtain ⟨⟨⟩, w₅, hscope, hpure⟩ := bind_ok.1 henter
  cases hpure
  obtain ⟨scope, found, rfl⟩ := enterScope_ok hscope
  rw [Arena.get?_push_next] at found
  cases found
  exact ⟨rfl, parent, block, rfl⟩

/-- A function begins in a scope of its own, as the routine with a given FORWARD node. -/
structure Opens (forwardNode : Option NodeId) (n : NodeId) (w w' : Walk) : Prop where
  symbols : ∃ s r, w'.index.symbols = w.index.symbols.push s ∧ s.kind = .routine r ∧
    r.body = w.index.scopes.next ∧ r.forwardNode = forwardNode ∧ s.definitionNode = some n
  scope : ∃ scope, w'.index.scopes.get? w.index.scopes.next = some scope ∧
    scope.rootBlock = w.index.blocks.next
  heading : (w'.notes.get n).heading =
    (some w.index.symbols.next, some w.index.scopes.next, some w.index.blocks.next)
  apart : ∀ m, m ≠ n → w'.notes.get m = w.notes.get m
  forwards : w'.forwards = w.forwards

theorem enterFreshFunction_ok {forwardNode : Option NodeId} {p : SymbolId × Plan env.tree n}
    (hok : enterFreshFunction env n forwardNode w = .ok p w') :
    p.1 = w.index.symbols.next ∧ Opens forwardNode n w w' := by
  unfold enterFreshFunction at hok
  obtain ⟨outer, w₁, houter, hrest⟩ := bind_ok.1 hok
  obtain ⟨-, rfl⟩ := currentScope_ok houter
  obtain ⟨body, w₂, hbody, hroutine⟩ := bind_ok.1 hrest
  obtain ⟨rfl, parent, block, rfl⟩ := openScope_ok hbody
  obtain ⟨i, w₃, hcreate, hpure⟩ := bind_ok.1 hroutine
  cases hpure
  unfold createRoutine at hcreate
  obtain ⟨i', w₄, hsymbol, hscope⟩ := bind_ok.1 hcreate
  obtain ⟨rfl, rfl⟩ := createSymbol_ok hsymbol
  obtain ⟨_, w₅, hupdate, hattaching⟩ := bind_ok.1 hscope
  obtain ⟨-, rfl⟩ := updateScope_ok hupdate
  obtain ⟨_, w₆, hattach, hdone⟩ := bind_ok.1 hattaching
  cases hdone
  obtain ⟨s, space, found, -, rfl⟩ := attach_ok hattach
  refine ⟨rfl, ⟨_, _, Arena.update_push_next _ _ _, rfl, rfl, rfl, rfl⟩, ?_, ?_, ?_, rfl⟩
  · -- what is done to the new scope leaves the block around its code as it is
    have keeps : ∀ {a : Arena .scope Scope} {i j : ScopeId} {v : Scope} (f : Scope → Scope),
        (∀ v, (f v).rootBlock = v.rootBlock) → a.get? j = some v →
        ∃ v', (a.update i f).get? j = some v' ∧ v'.rootBlock = v.rootBlock :=
      fun f h hv => Arena.keeps_update (fun v _ => h v) _ _ hv
    have new := Arena.get?_push_next w.index.scopes
      { parent := some parent, kind := .function, node := n, rootBlock := w.index.blocks.next }
    obtain ⟨scope, hget, same⟩ := keeps (fun s => { s with routine := some w.index.symbols.next })
      (fun _ => rfl) new
    unfold attached
    dsimp only
    split
    · exact ⟨scope, hget, same⟩
    · obtain ⟨scope', hget', same'⟩ := keeps
        (fun v => { v with names := (v.names.insert space s.name w.index.symbols.next).2 })
        (fun _ => rfl) hget
      exact ⟨scope', hget', same'.trans same⟩
  · simp [withScope, Annotation.heading]
  · intro m hm
    simp only [Option.elim_some, Annotations.get_update_of_ne (Ne.symm hm)]

/-- The body of a declaration continues in its scope, and nothing is opened or made. -/
structure Resumes (i : SymbolId) (n : NodeId) (w w' : Walk) : Prop where
  symbols : w'.index.symbols = w.index.symbols.update i fun s => { s with definitionNode := some n }
  scopes : w'.index.scopes = w.index.scopes
  blocks : w'.index.blocks = w.index.blocks
  heading : ∃ s r scope, w.index.symbols.get? i = some s ∧ s.kind = .routine r ∧
    w.index.scopes.get? r.body = some scope ∧
    (w'.notes.get n).heading = (some i, some r.body, some scope.rootBlock)
  apart : ∀ m, m ≠ n → w'.notes.get m = w.notes.get m
  forwards : w'.forwards = w.forwards

theorem enterForwardBody_ok {i : SymbolId} {plan : Plan env.tree n}
    (hok : enterForwardBody env n i w = .ok plan w') : Resumes i n w w' := by
  unfold enterForwardBody at hok
  obtain ⟨s, w₁, hs, hrest⟩ := bind_ok.1 hok
  obtain ⟨found, rfl⟩ := symbolAt_ok.1 hs
  cases hr : s.asRoutine? with
  | none =>
    rw [hr] at hrest
    cases hrest
  | some r =>
    rw [hr] at hrest
    have kind : s.kind = .routine r := by
      unfold Symbol.asRoutine? at hr
      split at hr <;> simp_all
    obtain ⟨_, w₂, hupdate, hannotate⟩ := bind_ok.1 hrest
    obtain rfl := updateSymbol_ok hupdate
    obtain ⟨_, w₃, hmark, henter⟩ := bind_ok.1 hannotate
    cases hmark
    obtain ⟨⟨⟩, w₄, hscope, hpure⟩ := bind_ok.1 henter
    cases hpure
    obtain ⟨scope, here, rfl⟩ := enterScope_ok hscope
    refine ⟨rfl, rfl, rfl, ⟨s, r, scope, found, kind, here, ?_⟩, fun m hm => ?_, rfl⟩
    · simp only [Annotations.get_update_self, Annotation.heading]
    · simp only [Annotations.get_update_of_ne (Ne.symm hm)]

/-- The routine of a declaration that waits under a folded name. -/
def waiting? (w : Walk) (key : String) : Option SymbolId :=
  (w.forwards.find? (·.1 = key)).map (·.2)

/-- How a function is entered: as a FORWARD declaration, as a function of its own, or as a body that
continues in the scope of the declaration that waits under its name. -/
inductive EntersFunction (env : Env) (n : NodeId) (w w' : Walk) : Prop
  | declares (forward : env.tree.hasKeyword n .forwards = true) (opens : Opens (some n) n w
      { w' with forwards := w.forwards }) (forwards : w'.forwards =
        (Text.fold (env.tree.definedName n), w.index.symbols.next) ::
          w.forwards.filter (·.1 ≠ Text.fold (env.tree.definedName n)))
  | opens (body : env.tree.hasKeyword n .forwards = false) {forwardNode : Option NodeId}
      (opens : Opens forwardNode n w { w' with forwards := w.forwards })
      (forwards : w'.forwards = w.forwards.filter (·.1 ≠ Text.fold (env.tree.definedName n)))
      (takes : w.waiting? (Text.fold (env.tree.definedName n)) = none ∧ forwardNode = none ∨
        listsParameters env n = true ∧ ∃ i s, w.index.symbols.get? i = some s ∧
          w.waiting? (Text.fold (env.tree.definedName n)) = some i ∧ forwardNode = s.definitionNode)
  | resumes (body : env.tree.hasKeyword n .forwards = false) {i : SymbolId}
      (resumes : Resumes i n w { w' with forwards := w.forwards })
      (forwards : w'.forwards = w.forwards.filter (·.1 ≠ Text.fold (env.tree.definedName n)))
      (bare : listsParameters env n = false)
      (takes : w.waiting? (Text.fold (env.tree.definedName n)) = some i)

theorem enterFunction_ok {plan : Plan env.tree n} (hok : enterFunction env n w = .ok plan w') :
    EntersFunction env n w w' := by
  unfold enterFunction at hok
  dsimp only at hok
  split at hok
  · rename_i forward
    obtain ⟨p, w₁, hfresh, hrest⟩ := bind_ok.1 hok
    obtain ⟨hp, opens⟩ := enterFreshFunction_ok hfresh
    cases hrest
    refine .declares forward { opens with forwards := rfl } ?_
    dsimp only
    rw [opens.forwards, hp]
  · rename_i body
    have body : env.tree.hasKeyword n .forwards = false := by simpa using body
    obtain ⟨found, w₁, htake, hrest⟩ := bind_ok.1 hok
    have taken : found = w.waiting? (Text.fold (env.tree.definedName n)) ∧ w₁ = { w with
        forwards := w.forwards.filter (·.1 ≠ Text.fold (env.tree.definedName n)) } := by
      cases htake
      exact ⟨rfl, rfl⟩
    obtain ⟨rfl, rfl⟩ := taken
    cases hwaiting : w.waiting? (Text.fold (env.tree.definedName n)) with
    | none =>
      rw [hwaiting] at hrest
      obtain ⟨p, w₂, hfresh, hpure⟩ := bind_ok.1 hrest
      cases hpure
      obtain ⟨-, opens⟩ := enterFreshFunction_ok hfresh
      exact .opens body { opens with forwards := rfl } opens.forwards (.inl ⟨hwaiting, rfl⟩)
    | some i =>
      rw [hwaiting] at hrest
      dsimp only at hrest
      split at hrest
      · rename_i lists
        obtain ⟨s, w₂, hs, hfresh⟩ := bind_ok.1 hrest
        obtain ⟨found, rfl⟩ := symbolAt_ok.1 hs
        obtain ⟨p, w₃, hfresh, hpure⟩ := bind_ok.1 hfresh
        cases hpure
        obtain ⟨-, opens⟩ := enterFreshFunction_ok hfresh
        exact .opens body { opens with forwards := rfl } opens.forwards
          (.inr ⟨lists, i, s, found, hwaiting, rfl⟩)
      · rename_i bare
        have resumes := enterForwardBody_ok hrest
        exact .resumes body { resumes with forwards := rfl } resumes.forwards (by simpa using bare)
          hwaiting

/-! ### Between functions -/

/-- What a routine is besides its parameters and its type. -/
def outline (s : Symbol) : Option (ScopeId × Option NodeId × Option NodeId) :=
  s.asRoutine?.map fun r => (r.body, r.forwardNode, s.definitionNode)

theorem outline_core (s : Symbol) : outline s.core = outline s := by
  cases hk : s.kind <;> simp [outline, Symbol.core, SymbolKind.core, Symbol.asRoutine?, hk]

theorem outline_of_kind {s : Symbol} {r : Routine} (kind : s.kind = .routine r) :
    outline s = some (r.body, r.forwardNode, s.definitionNode) := by
  simp [outline, Symbol.asRoutine?, kind]

theorem of_outline {s : Symbol} {o : ScopeId × Option NodeId × Option NodeId}
    (h : outline s = some o) :
    ∃ r, s.kind = .routine r ∧ r.body = o.1 ∧ r.forwardNode = o.2.1 ∧ s.definitionNode = o.2.2 := by
  unfold outline Symbol.asRoutine? at h
  split at h
  · rename_i r kind
    cases h
    exact ⟨r, kind, rfl, rfl, rfl⟩
  · cases h

/-- Deeds that have nothing to do with FORWARD declarations. -/
def Deed.isSteady : Deed → Bool
  | .announce .. | .take _ | .relocate .. => false
  | _ => true

theorem Deed.isSteady_of_isOfAction {d : Deed} (h : d.isOfAction) : d.isSteady := by
  cases d <;> simp_all [isOfAction, isSteady]

/-- From `w` to `w'` no function is entered. -/
structure Steady (w w' : Walk) : Prop where
  forwards : w'.forwards = w.forwards
  outlines : w.index.symbols.Keeps outline w'.index.symbols

theorem Steady.trans {v : Walk} (h : Steady w v) (k : Steady v w') : Steady w w' :=
  ⟨k.forwards.trans h.forwards, h.outlines.trans k.outlines⟩

theorem Calm.steady {l : Licence} (h : Calm l w w') : Steady w w' := by
  refine ⟨h.forwards, fun i s hs => ?_⟩
  obtain ⟨s', hs', same⟩ := h.symbols.keeps i s hs
  exact ⟨s', hs', by rw [← outline_core s', same, outline_core]⟩

theorem Effect.steady {d : Deed} (h : Effect env w d w') (hd : d.isSteady) : Steady w w' := by
  cases h with
  | make => exact ⟨rfl, Arena.keeps_push _ _ _⟩
  | attach => exact ⟨rfl, Arena.keeps_update fun _ _ => rfl⟩
  | sign event s =>
    refine ⟨rfl, Arena.keeps_update fun v _ => ?_⟩
    cases hk : v.kind <;> simp [outline, Symbol.signed, Symbol.asRoutine?, hk]
  | enlist routine s mode =>
    refine ⟨rfl, Arena.keeps_update fun v _ => ?_⟩
    cases hk : v.kind <;> simp [outline, Symbol.enlisted, Symbol.asRoutine?, hk]
  | turn | load => exact ⟨rfl, .refl _ _⟩
  | announce | take | relocate => cases hd

theorem Log.steady {l : Licence} {ds : List Deed} (h : Log env l w ds w')
    (hds : ∀ d ∈ ds, d.isSteady) : Steady w w' :=
  h.keep (P := Steady w) ⟨rfl, .refl _ _⟩ (fun _ _ calm so => so.trans calm.steady)
    fun d hd _ _ effect so => so.trans (effect.steady (hds d hd))

/-! ### The history of functions -/

/-- A node carries a routine, the scope that is its body and the block around the code there. -/
structure Carries (x : UnitIndex) (a : Annotation) (i : SymbolId) (s : Symbol) (r : Routine) :
    Prop where
  symbol : x.symbols.get? i = some s
  kind : s.kind = .routine r
  heading : ∃ scope, x.scopes.get? r.body = some scope ∧
    a.heading = (some i, some r.body, some scope.rootBlock)

/-- A function takes up a declaration and lists no parameters. -/
def Continues (env : Env) (ns : List NodeId) (n m : NodeId) : Prop :=
  env.tree.declaration? ns n = some m ∧ listsParameters env n = false

/-- Entering a node opens no scope and no block, and makes no symbol. -/
def AddsNothing (env : Env) (n : NodeId) (w : Walk) : Prop :=
  ∃ plan w', enter env n w = .ok plan w' ∧ w'.index.scopes.size = w.index.scopes.size ∧
    w'.index.blocks.size = w.index.blocks.size ∧ w'.index.symbols.size = w.index.symbols.size

/-- What is known of a function once it has been entered. A declaration is defined where it stands
as long as it waits. -/
def FunctionAt (env : Env) (ns : List NodeId) (w : Walk) (n : NodeId) : Prop :=
  ∃ i s r, Carries w.index (w.notes.get n) i s r ∧ r.forwardNode = env.tree.forwardNode? ns n ∧
    ((env.tree.hasKeyword n .forwards = true →
        env.tree.lastFunction? (Text.fold (env.tree.definedName n)) ns = some n) →
      s.definitionNode = some n)

/-- How a function was entered in state `v`. -/
structure EnteredAs (env : Env) (ns : List NodeId) (n : NodeId) (v : Walk) (notes : Annotations) :
    Prop where
  continues : ∀ m, Continues env ns n m →
    (notes.get n).heading = (notes.get m).heading ∧ AddsNothing env n v
  fresh : (∀ m, ¬ Continues env ns n m) → (notes.get n).heading =
    (some v.index.symbols.next, some v.index.scopes.next, some v.index.blocks.next)
  within : ∀ m ∈ ns.takeWhile (· ≠ n), env.tree.kind m = .functionStatement →
    ∀ s, (notes.get m).scope = some s → s.val < v.index.scopes.size

/-- What is known of the functions when the nodes `es` have been entered. -/
structure History (env : Env) (es : List (NodeId × Walk)) (w : Walk) : Prop where
  waits : ∀ key, w.waiting? key = ((env.tree.lastFunction? key (es.map (·.1))).filter
    fun m => env.tree.hasKeyword m .forwards).bind fun m => (w.notes.get m).symbol
  carries : ∀ n ∈ es.map (·.1), env.tree.kind n = .functionStatement →
    FunctionAt env (es.map (·.1)) w n
  entered : ∀ n v, (n, v) ∈ es → env.tree.kind n = .functionStatement →
    EnteredAs env (es.map (·.1)) n v w.notes

section History

variable {es : List (NodeId × Walk)} {ns : List NodeId} {v : Walk} {notes notes' : Annotations}
  {m : NodeId}

theorem Carries.scope_lt {x : UnitIndex} {a : Annotation} {i : SymbolId} {s : Symbol} {r : Routine}
    (h : Carries x a i s r) {o : ScopeId} (ho : a.scope = some o) : o.val < x.scopes.size := by
  obtain ⟨scope, hscope, heading⟩ := h.heading
  have hbody : a.scope = some r.body := congrArg (·.2.1) heading
  rw [hbody] at ho
  cases ho
  exact Arena.lt_size_of_get? hscope

/-- A function stays what it is as long as its symbol keeps its outline. -/
theorem Carries.keep {x y : UnitIndex} {a b : Annotation} {i : SymbolId} {s s' : Symbol}
    {r : Routine} (h : Carries x a i s r) (ext : x.Extends y) (heading : b.heading = a.heading)
    (get : y.symbols.get? i = some s') {node : Option NodeId}
    (same : outline s' = some (r.body, r.forwardNode, node)) :
    ∃ r', Carries y b i s' r' ∧ r'.forwardNode = r.forwardNode ∧ s'.definitionNode = node := by
  obtain ⟨r', kind, body, forwardNode, hnode⟩ := of_outline same
  obtain ⟨scope, hscope, hheading⟩ := h.heading
  obtain ⟨scope', hscope', fixed⟩ := ext.scopes _ _ hscope
  have root : scope'.rootBlock = scope.rootBlock := congrArg (·.2.2.1) fixed
  refine ⟨r', ⟨get, kind, scope', ?_, ?_⟩, forwardNode, hnode⟩
  · rw [body]
    exact hscope'
  · rw [heading, hheading, body, root]

theorem Continues.mem (h : Continues env ns n m) :
    m ∈ ns.takeWhile (· ≠ n) ∧ env.tree.kind m = .functionStatement := by
  obtain ⟨-, -, hlast⟩ := of_declaration? h.1
  obtain ⟨mem, kind, -⟩ := mem_of_lastFunction? hlast
  exact ⟨mem, kind⟩

theorem EnteredAs.congr (h : EnteredAs env ns n v notes) (hn : n ∈ ns)
    (kind : env.tree.kind n = .functionStatement)
    (same : ∀ m ∈ ns, env.tree.kind m = .functionStatement →
      (notes'.get m).heading = (notes.get m).heading) : EnteredAs env ns n v notes' where
  continues m hm := by
    obtain ⟨mem, hkind⟩ := hm.mem
    obtain ⟨heading, nothing⟩ := h.continues m hm
    exact ⟨by rw [same n hn kind, heading, same m ((List.takeWhile_sublist _).subset mem) hkind],
      nothing⟩
  fresh none := (same n hn kind).trans (h.fresh none)
  within m mem hkind o ho := by
    have scope := congrArg (·.2.1) (same m ((List.takeWhile_sublist _).subset mem) hkind)
    exact h.within m mem hkind o (scope.symm.trans ho)

theorem EnteredAs.append (h : EnteredAs env ns n v notes) (hn : n ∈ ns) (ms : List NodeId) :
    EnteredAs env (ns ++ ms) n v notes := by
  have same : ∀ m, Continues env (ns ++ ms) n m ↔ Continues env ns n m := fun m => by
    rw [Continues, Continues, declaration?_append hn]
  refine ⟨fun m hm => h.continues m ((same m).1 hm), fun none => h.fresh fun m hm => ?_, ?_⟩
  · exact none m ((same m).2 hm)
  · rw [takeWhile_ne_append hn]
    exact h.within

theorem History.steady (h : History env es w) (steady : Steady w w')
    (ext : w.index.Extends w'.index)
    (same : ∀ m ∈ es.map (·.1), env.tree.kind m = .functionStatement →
      (w'.notes.get m).heading = (w.notes.get m).heading) : History env es w' where
  waits key := by
    have waiting : w'.waiting? key = w.waiting? key := by rw [waiting?, waiting?, steady.forwards]
    rw [waiting, h.waits]
    cases hlast : env.tree.lastFunction? key (es.map (·.1)) with
    | none => rfl
    | some m =>
      obtain ⟨mem, kind, -⟩ := mem_of_lastFunction? hlast
      have symbol : (w'.notes.get m).symbol = (w.notes.get m).symbol :=
        congrArg (·.1) (same m mem kind)
      simp only [Option.filter_some]
      split
      · exact symbol.symm
      · rfl
  carries n hn kind := by
    obtain ⟨i, s, r, carries, forwardNode, placed⟩ := h.carries n hn kind
    obtain ⟨s', hs', outlines⟩ := steady.outlines i s carries.symbol
    obtain ⟨r', carries', forwardNode', node⟩ := carries.keep ext (same n hn kind) hs'
      (outlines.trans (outline_of_kind carries.kind))
    exact ⟨i, s', r', carries', forwardNode'.trans forwardNode,
      fun last => node.trans (placed last)⟩
  entered n v he kind := (h.entered n v he kind).congr (List.mem_map_of_mem he) kind same

/-- Nodes of other kinds do not count. -/
theorem History.other (h : History env es w) (kind : env.tree.kind n ≠ .functionStatement)
    (v : Walk) : History env (es ++ [(n, v)]) w := by
  have last : ∀ key, env.tree.lastFunction? key (es.map (·.1) ++ [n]) =
      env.tree.lastFunction? key (es.map (·.1)) := fun key => by
    rw [lastFunction?_concat, if_neg fun h => kind h.1]
  have old : ∀ {m}, m ∈ es.map (·.1) ++ [n] → env.tree.kind m = .functionStatement →
      m ∈ es.map (·.1) := by
    intro m hm hkind
    rcases List.mem_append.1 hm with hm | hm
    · exact hm
    · cases List.mem_singleton.1 hm
      exact absurd hkind kind
  refine ⟨fun key => ?_, fun m hm hkind => ?_, fun m v' he hkind => ?_⟩
  · rw [List.map_append, List.map_singleton, last]
    exact h.waits key
  · rw [List.map_append, List.map_singleton] at hm ⊢
    obtain ⟨i, s, r, carries, forwardNode, placed⟩ := h.carries m (old hm hkind) hkind
    exact ⟨i, s, r, carries, by rw [forwardNode, forwardNode?_append (old hm hkind)],
      fun h => placed fun forward => (last _).symm.trans (h forward)⟩
  · rcases List.mem_append.1 he with he | he
    · rw [List.map_append]
      exact (h.entered m v' he hkind).append (List.mem_map_of_mem he) _
    · cases List.mem_singleton.1 he
      exact absurd hkind kind

/-- A function that was entered last before another of its name is no longer the last. -/
theorem FunctionAt.concat (h : FunctionAt env ns w m) (hm : m ∈ ns) (hn : n ∉ ns)
    (same : ∀ {i s r}, Carries w.index (w.notes.get m) i s r →
      ((env.tree.hasKeyword m .forwards = true →
          env.tree.lastFunction? (Text.fold (env.tree.definedName m)) (ns ++ [n]) = some m) →
        s.definitionNode = some m) →
      ∃ s' r', Carries w'.index (w'.notes.get m) i s' r' ∧ r'.forwardNode = r.forwardNode ∧
        ((env.tree.hasKeyword m .forwards = true →
          env.tree.lastFunction? (Text.fold (env.tree.definedName m)) (ns ++ [n]) = some m) →
        s'.definitionNode = some m)) :
    FunctionAt env (ns ++ [n]) w' m := by
  obtain ⟨i, s, r, carries, forwardNode, placed⟩ := h
  obtain ⟨s', r', carries', forwardNode', placed'⟩ :=
    same carries fun last => placed fun forward => by
      have now := last forward
      rw [lastFunction?_concat] at now
      split at now
      · cases now
        exact absurd hm hn
      · exact now
  exact ⟨i, s', r', carries', by rw [forwardNode', forwardNode, forwardNode?_append hm], placed'⟩

/-- A function that is entered adds to the history. -/
theorem History.concat (h : History env es w) (hn : n ∉ es.map (·.1))
    (kind : env.tree.kind n = .functionStatement)
    (apart : ∀ m, m ≠ n → w'.notes.get m = w.notes.get m)
    (others : ∀ key, key ≠ Text.fold (env.tree.definedName n) → w'.waiting? key = w.waiting? key)
    (own : w'.waiting? (Text.fold (env.tree.definedName n)) =
      if env.tree.hasKeyword n .forwards then (w'.notes.get n).symbol else none)
    (old : ∀ m ∈ es.map (·.1), env.tree.kind m = .functionStatement →
      FunctionAt env (es.map (·.1) ++ [n]) w' m)
    (new : FunctionAt env (es.map (·.1) ++ [n]) w' n)
    (continues : ∀ m, Continues env (es.map (·.1) ++ [n]) n m →
      (w'.notes.get n).heading = (w'.notes.get m).heading ∧ AddsNothing env n w)
    (fresh : (∀ m, ¬ Continues env (es.map (·.1) ++ [n]) n m) → (w'.notes.get n).heading =
      (some w.index.symbols.next, some w.index.scopes.next, some w.index.blocks.next)) :
    History env (es ++ [(n, w)]) w' := by
  have ne : ∀ m ∈ es.map (·.1), m ≠ n := fun m hm heq => hn (heq ▸ hm)
  have nodes : (es ++ [(n, w)]).map (·.1) = es.map (·.1) ++ [n] := by simp
  refine ⟨fun key => ?_, fun m hm hkind => ?_, fun m v he hkind => ?_⟩
  · rw [nodes, lastFunction?_concat]
    by_cases hkey : Text.fold (env.tree.definedName n) = key
    · subst hkey
      have now : env.tree.kind n = .functionStatement ∧
        Text.fold (env.tree.definedName n) = Text.fold (env.tree.definedName n) := ⟨kind, rfl⟩
      rw [own, if_pos now, Option.filter_some]
      split <;> rfl
    · rw [others key (Ne.symm hkey), if_neg fun h => hkey h.2, h.waits]
      cases hlast : env.tree.lastFunction? key (es.map (·.1)) with
      | none => rfl
      | some m =>
        rw [Option.filter_some]
        split
        · rw [Option.bind_some, Option.bind_some, apart m (ne m (mem_of_lastFunction? hlast).1)]
        · rfl
  · rw [nodes] at hm ⊢
    rcases List.mem_append.1 hm with hm | hm
    · exact old m hm hkind
    · cases List.mem_singleton.1 hm
      exact new
  · rw [nodes]
    rcases List.mem_append.1 he with he | he
    · have mem : m ∈ es.map (·.1) := List.mem_map_of_mem he
      exact ((h.entered m v he hkind).congr mem hkind fun k hk _ => by
        rw [apart k (ne k hk)]).append mem _
    · cases List.mem_singleton.1 he
      refine ⟨continues, fresh, ?_⟩
      rw [takeWhile_ne_self hn]
      intro k hk hkind o ho
      obtain ⟨i, s, r, carries, -⟩ := h.carries k hk hkind
      rw [apart k (ne k hk)] at ho
      exact carries.scope_lt ho

/-- The declaration that waits under the name of a function is the one it takes up. -/
theorem History.waiting (h : History env es w) (hn : n ∉ es.map (·.1))
    (body : env.tree.hasKeyword n .forwards = false) :
    match w.waiting? (Text.fold (env.tree.definedName n)) with
    | none => env.tree.declaration? (es.map (·.1) ++ [n]) n = none
    | some i => ∃ m s r, env.tree.declaration? (es.map (·.1) ++ [n]) n = some m ∧
      m ∈ es.map (·.1) ∧ env.tree.kind m = .functionStatement ∧
      env.tree.hasKeyword m .forwards = true ∧
      Text.fold (env.tree.definedName m) = Text.fold (env.tree.definedName n) ∧
      Carries w.index (w.notes.get m) i s r ∧ r.forwardNode = some m ∧
      s.definitionNode = some m := by
  rw [h.waits, declaration?_concat hn, if_neg (by simp [body])]
  cases hlast : (env.tree.lastFunction? (Text.fold (env.tree.definedName n)) (es.map (·.1))).filter
      fun m => env.tree.hasKeyword m .forwards with
  | none => rfl
  | some m =>
    obtain ⟨last, forward⟩ := Option.filter_eq_some_iff.1 hlast
    obtain ⟨mem, kind, hkey⟩ := mem_of_lastFunction? last
    obtain ⟨i, s, r, carries, forwardNode, placed⟩ := h.carries m mem kind
    obtain ⟨scope, -, heading⟩ := carries.heading
    have symbol : (w.notes.get m).symbol = some i := congrArg (·.1) heading
    rw [Option.bind_some, symbol]
    refine ⟨m, s, r, rfl, mem, kind, forward, hkey, carries, ?_, placed fun _ => hkey ▸ last⟩
    rw [forwardNode, forwardNode?, if_pos forward]

theorem find?_filter_ne {l : List (String × SymbolId)} (key key' : String) :
    (l.filter (·.1 ≠ key)).find? (·.1 = key') =
      if key' = key then none else l.find? (·.1 = key') := by
  rw [List.find?_filter]
  split
  · rename_i heq
    subst heq
    simp
  · rename_i hne
    congr 1
    funext p
    by_cases hp : p.1 = key' <;> simp_all

theorem waiting?_filter {key : String} (h : w'.forwards = w.forwards.filter (·.1 ≠ key))
    (key' : String) : w'.waiting? key' = if key' = key then none else w.waiting? key' := by
  rw [waiting?, h, find?_filter_ne]
  split <;> rfl

theorem waiting?_cons {key : String} {i : SymbolId}
    (h : w'.forwards = (key, i) :: w.forwards.filter (·.1 ≠ key)) (key' : String) :
    w'.waiting? key' = if key' = key then some i else w.waiting? key' := by
  rw [waiting?, h, List.find?_cons, find?_filter_ne]
  by_cases heq : key' = key
  · simp [heq]
  · simp [heq, Ne.symm heq, waiting?]

/-- A function in a scope of its own leaves the earlier ones as they are. -/
theorem Opens.earlier {f : Option NodeId} (opens : Opens f n w { w' with forwards := w.forwards })
    (ext : w.index.Extends w'.index) (hm : m ∈ ns) (hn : n ∉ ns) (h : FunctionAt env ns w m) :
    FunctionAt env (ns ++ [n]) w' m := by
  obtain ⟨new, -, symbols, -⟩ := opens.symbols
  refine h.concat hm hn fun {i s r} carries placed => ?_
  have heading : (w'.notes.get m).heading = (w.notes.get m).heading := by
    rw [← opens.apart m fun heq => hn (heq ▸ hm)]
  have get : w'.index.symbols.get? i = some s := by
    rw [show w'.index.symbols = _ from symbols]
    exact Arena.get?_push_of_get? carries.symbol
  obtain ⟨r', carries', forwardNode, node⟩ :=
    carries.keep ext heading get (outline_of_kind carries.kind)
  exact ⟨s, r', carries', forwardNode, placed⟩

theorem Opens.functionAt (opens : Opens (env.tree.forwardNode? ns n) n w
    { w' with forwards := w.forwards }) : FunctionAt env ns w' n := by
  obtain ⟨s, r, symbols, kind, body, forwardNode, node⟩ := opens.symbols
  obtain ⟨scope, hscope, root⟩ := opens.scope
  refine ⟨w.index.symbols.next, s, r, ⟨?_, kind, scope, body ▸ hscope, ?_⟩, forwardNode,
    fun _ => node⟩
  · rw [show w'.index.symbols = _ from symbols]
    exact Arena.get?_push_next _ _
  · rw [body, root]
    exact opens.heading

/-- A declaration waits from now on, in place of the one that waited under its name. -/
theorem History.declares (h : History env es w) (hn : n ∉ es.map (·.1))
    (kind : env.tree.kind n = .functionStatement) (ext : w.index.Extends w'.index)
    (forward : env.tree.hasKeyword n .forwards = true)
    (opens : Opens (some n) n w { w' with forwards := w.forwards })
    (forwards : w'.forwards = (Text.fold (env.tree.definedName n), w.index.symbols.next) ::
      w.forwards.filter (·.1 ≠ Text.fold (env.tree.definedName n))) :
    History env (es ++ [(n, w)]) w' := by
  have forwardNode : env.tree.forwardNode? (es.map (·.1) ++ [n]) n = some n := if_pos forward
  have own : (w'.notes.get n).symbol = some w.index.symbols.next := congrArg (·.1) opens.heading
  refine h.concat hn kind opens.apart (fun key hkey => ?_) ?_
    (fun m hm hkind => opens.earlier ext hm hn (h.carries m hm hkind))
    (forwardNode ▸ opens).functionAt (fun m hm => ?_) fun _ => opens.heading
  · rw [waiting?_cons forwards, if_neg hkey]
  · rw [waiting?_cons forwards, if_pos rfl, if_pos forward, own]
  · have body := (of_declaration? hm.1).1
    rw [forward] at body
    cases body

/-- The declaration a body takes up is the one it stands for, and only a body with parameters opens
a scope of its own after a declaration. -/
theorem History.taken (h : History env es w) (hn : n ∉ es.map (·.1))
    (body : env.tree.hasKeyword n .forwards = false) {f : Option NodeId}
    (takes : w.waiting? (Text.fold (env.tree.definedName n)) = none ∧ f = none ∨
      listsParameters env n = true ∧ ∃ i s, w.index.symbols.get? i = some s ∧
        w.waiting? (Text.fold (env.tree.definedName n)) = some i ∧ f = s.definitionNode) :
    env.tree.declaration? (es.map (·.1) ++ [n]) n = f ∧
      (f = none ∨ listsParameters env n = true) := by
  have waiting := h.waiting hn body
  rcases takes with ⟨hnone, rfl⟩ | ⟨lists, i, s, found, hsome, rfl⟩
  · rw [hnone] at waiting
    exact ⟨waiting, .inl rfl⟩
  · rw [hsome] at waiting
    obtain ⟨m, s', r, hdeclaration, -, -, -, -, carries, -, node⟩ := waiting
    rw [carries.symbol] at found
    cases found
    exact ⟨hdeclaration.trans node.symm, .inr lists⟩

/-- A body that opens a scope of its own continues in none. -/
theorem History.opens (h : History env es w) (hn : n ∉ es.map (·.1))
    (kind : env.tree.kind n = .functionStatement) (ext : w.index.Extends w'.index)
    (body : env.tree.hasKeyword n .forwards = false) {f : Option NodeId}
    (opens : Opens f n w { w' with forwards := w.forwards })
    (forwards : w'.forwards = w.forwards.filter (·.1 ≠ Text.fold (env.tree.definedName n)))
    (hdeclaration : env.tree.declaration? (es.map (·.1) ++ [n]) n = f)
    (own : f = none ∨ listsParameters env n = true) : History env (es ++ [(n, w)]) w' := by
  have forwardNode : env.tree.forwardNode? (es.map (·.1) ++ [n]) n = f := by
    rw [forwardNode?, if_neg (by simp [body]), hdeclaration]
  refine h.concat hn kind opens.apart (fun key hkey => ?_) ?_
    (fun m hm hkind => opens.earlier ext hm hn (h.carries m hm hkind))
    (forwardNode ▸ opens).functionAt (fun m hm => ?_) fun _ => opens.heading
  · rw [waiting?_filter forwards, if_neg hkey]
  · rw [waiting?_filter forwards, if_pos rfl, if_neg (by simp [body])]
  · rcases own with rfl | lists
    · exact absurd (hdeclaration.symm.trans hm.1) nofun
    · rw [hm.2] at lists
      cases lists

/-- A body that continues in the scope of a declaration carries what the declaration carries. -/
theorem Resumes.heading_eq {i : SymbolId} {s : Symbol} {r : Routine}
    (resumes : Resumes i n w { w' with forwards := w.forwards })
    (carries : Carries w.index (w.notes.get m) i s r) :
    (w'.notes.get n).heading = (w.notes.get m).heading := by
  obtain ⟨s', r', scope, found, kind', hscope, hheading⟩ := resumes.heading
  rw [carries.symbol] at found
  cases found
  rw [carries.kind] at kind'
  cases kind'
  obtain ⟨scope', hscope', hheading'⟩ := carries.heading
  rw [hscope] at hscope'
  cases hscope'
  exact hheading.trans hheading'.symm

theorem Resumes.get? {i : SymbolId} {s : Symbol}
    (resumes : Resumes i n w { w' with forwards := w.forwards })
    (found : w.index.symbols.get? i = some s) :
    w'.index.symbols.get? i = some { s with definitionNode := some n } := by
  rw [show w'.index.symbols = _ from resumes.symbols, Arena.get?_update, if_pos rfl, found]
  rfl

theorem Resumes.addsNothing {i : SymbolId} {plan : Plan env.tree n}
    (resumes : Resumes i n w { w' with forwards := w.forwards })
    (hok : enter env n w = .ok plan w') : AddsNothing env n w := by
  refine ⟨plan, w', hok, ?_, ?_, ?_⟩
  · rw [show w'.index.scopes = _ from resumes.scopes]
  · rw [show w'.index.blocks = _ from resumes.blocks]
  · rw [show w'.index.symbols = _ from resumes.symbols, Arena.size_update]

/-- A body in the scope of a declaration leaves the earlier functions what they are. The declaration
`d` it continues waits no longer: another function of its name has been entered. -/
theorem Resumes.earlier {i : SymbolId} {s : Symbol} {d : NodeId}
    (resumes : Resumes i n w { w' with forwards := w.forwards })
    (ext : w.index.Extends w'.index) (hm : m ∈ ns) (hn : n ∉ ns)
    (kind : env.tree.kind n = .functionStatement)
    (found : w.index.symbols.get? i = some s) (node : s.definitionNode = some d) (hd : d ∈ ns)
    (forward : env.tree.hasKeyword d .forwards = true)
    (hkey : Text.fold (env.tree.definedName d) = Text.fold (env.tree.definedName n))
    (h : FunctionAt env ns w m) : FunctionAt env (ns ++ [n]) w' m := by
  have heading : (w'.notes.get m).heading = (w.notes.get m).heading := by
    rw [← resumes.apart m fun heq => hn (heq ▸ hm)]
  refine h.concat hm hn fun {j v q} carries placed => ?_
  by_cases hj : i = j
  · subst hj
    have same := carries.symbol
    rw [found] at same
    cases same
    obtain ⟨q', kept, forwardNode, -⟩ := carries.keep ext heading (resumes.get? found)
      (outline_of_kind (r := q) carries.kind)
    refine ⟨_, q', kept, forwardNode, fun last => ?_⟩
    have hsame := node.symm.trans (placed last)
    cases hsame
    have now := last forward
    rw [lastFunction?_concat, if_pos ⟨kind, hkey.symm⟩] at now
    exact absurd (Option.some.inj now ▸ hm) hn
  · have get : w'.index.symbols.get? j = some v := by
      rw [show w'.index.symbols = _ from resumes.symbols, Arena.get?_update, if_neg hj]
      exact carries.symbol
    obtain ⟨q', kept, forwardNode, -⟩ := carries.keep ext heading get (outline_of_kind carries.kind)
    exact ⟨v, q', kept, forwardNode, placed⟩

/-- A body without parameters continues in the scope of the declaration that waits for it. -/
theorem History.resumes {plan : Plan env.tree n} (h : History env es w) (hn : n ∉ es.map (·.1))
    (kind : env.tree.kind n = .functionStatement) (ext : w.index.Extends w'.index)
    (hok : enter env n w = .ok plan w') (body : env.tree.hasKeyword n .forwards = false)
    {i : SymbolId} (resumes : Resumes i n w { w' with forwards := w.forwards })
    (forwards : w'.forwards = w.forwards.filter (·.1 ≠ Text.fold (env.tree.definedName n)))
    (bare : listsParameters env n = false)
    (takes : w.waiting? (Text.fold (env.tree.definedName n)) = some i) :
    History env (es ++ [(n, w)]) w' := by
  have waiting := h.waiting hn body
  rw [takes] at waiting
  obtain ⟨d, s, r, hdeclaration, hd, -, forward, hkey, carries, forwardNode, node⟩ := waiting
  have heading := resumes.heading_eq carries
  refine h.concat hn kind resumes.apart (fun key hkey => ?_) ?_ (fun m hm hkind => ?_) ?_
    (fun m hcontinues => ?_) fun none => absurd ⟨hdeclaration, bare⟩ (none d)
  · rw [waiting?_filter forwards, if_neg hkey]
  · rw [waiting?_filter forwards, if_pos rfl, if_neg (by simp [body])]
  · exact resumes.earlier ext hm hn kind carries.symbol node hd forward hkey (h.carries m hm hkind)
  · obtain ⟨r', kept, forwardNode', -⟩ := carries.keep ext heading (resumes.get? carries.symbol)
      (outline_of_kind (r := r) carries.kind)
    refine ⟨i, _, r', kept, ?_, fun _ => rfl⟩
    rw [forwardNode', forwardNode, forwardNode?, if_neg (by simp [body]), hdeclaration]
  · have hsame := hdeclaration.symm.trans hcontinues.1
    cases hsame
    have kept : (w'.notes.get d).heading = (w.notes.get d).heading := by
      rw [← resumes.apart d fun heq => hn (heq ▸ hd)]
    exact ⟨heading.trans kept.symm, resumes.addsNothing hok⟩

/-- What is known of the functions when a further one has been entered. -/
theorem History.enters {plan : Plan env.tree n} (h : History env es w) (hn : n ∉ es.map (·.1))
    (kind : env.tree.kind n = .functionStatement) (ext : w.index.Extends w'.index)
    (hok : enter env n w = .ok plan w') : History env (es ++ [(n, w)]) w' := by
  have entered : enterFunction env n w = .ok plan w' := by
    rw [← hok]
    simp only [enter, kind]
  cases enterFunction_ok entered with
  | declares forward opens forwards => exact h.declares hn kind ext forward opens forwards
  | opens body opens forwards takes =>
    obtain ⟨hdeclaration, own⟩ := h.taken hn body takes
    exact h.opens hn kind ext body opens forwards hdeclaration own
  | resumes body resumes forwards bare takes =>
    exact h.resumes hn kind ext hok body resumes forwards bare takes

theorem Entering.isSteady {ds : List Deed} {owes : List SymbolId}
    (h : Entering env n ds owes) (kind : env.tree.kind n ≠ .functionStatement) :
    ∀ d ∈ ds, d.isSteady := by
  cases h with
  | announces isFunction | function isFunction | resumes isFunction => exact absurd isFunction kind
  | inline _ _ loading => cases loading <;> simp [Deed.isSteady]
  | _ => simp [Deed.isSteady]

/-- The history is kept by a whole walk. -/
theorem keeps_history : Keeps env (History env) where
  enters es n w plan w' hs nodup hok admitted h := by
    have hn : n ∉ es.map (·.1) := by
      rw [List.map_append, List.nodup_append] at nodup
      exact fun mem => nodup.2.2 n mem n (by simp) rfl
    by_cases kind : env.tree.kind n = .functionStatement
    · exact h.enters hn kind admitted.enters.extends hok
    · obtain ⟨ds, log, begins⟩ := enter_begins hs hok
      refine (h.steady (log.steady (begins.entering.isSteady kind)) admitted.enters.extends
        fun m hm hkind => log.written ?_).other kind w
      rintro (rfl | ⟨-, isIdentifier⟩)
      · exact hn hm
      · rw [hkind] at isIdentifier
        cases isIdentifier
  acts es w ds w' _ strides log hds h := by
    refine h.steady (log.steady fun d hd => Deed.isSteady_of_isOfAction (hds d hd)) strides.extends
      fun m _ hkind => log.written fun isBuffer => ?_
    have isBuffer : (env.tree.kind m).isBufferDefinition = true := isBuffer
    rw [hkind] at isBuffer
    cases isBuffer

theorem history_start (notes : Annotations) : History env [] (start env notes) :=
  ⟨fun _ => rfl, nofun, nofun⟩

/-- The scope that a function carries is the body of its routine. -/
theorem Carries.routine_eq {x : UnitIndex} {a : Annotation} {i : SymbolId} {s : Symbol}
    {r : Routine} (h : Carries x a i s r) (coherent : x.Coherent) {o : ScopeId}
    (ho : a.scope = some o) :
    ∃ v, x.scopes.get? o = some v ∧ v.routine = some i := by
  obtain ⟨v, -, heading⟩ := h.heading
  have body : a.scope = some r.body := congrArg (·.2.1) heading
  rw [body] at ho
  cases ho
  have isBody := (coherent.symbols h.symbol).kind
  rw [h.kind] at isBody
  obtain ⟨v, hv, routine, -⟩ := isBody
  exact ⟨v, hv, routine⟩

/-- A body shares its scope with a declaration only if it continues in it. -/
theorem History.continues (h : History env es w) (hn : n ∈ es.map (·.1))
    (kind : env.tree.kind n = .functionStatement) (kind' : env.tree.kind m = .functionStatement)
    {o : ScopeId} (scope : (w.notes.get n).scope = some o) (scope' : (w.notes.get m).scope = some o)
    (hdeclaration : env.tree.declaration? (es.map (·.1)) n = some m) :
    Continues env (es.map (·.1)) n m := by
  refine ⟨hdeclaration, ?_⟩
  by_contra hlists
  obtain ⟨⟨_, v⟩, he, rfl⟩ := List.mem_map.1 hn
  have entered := h.entered _ v he kind
  have heading := entered.fresh fun m hm => hlists hm.2
  have next : (w.notes.get _).scope = some v.index.scopes.next := congrArg (·.2.1) heading
  rw [scope] at next
  cases next
  obtain ⟨-, -, hlast⟩ := of_declaration? hdeclaration
  exact Nat.lt_irrefl _ (entered.within m (mem_of_lastFunction? hlast).1 kind' _ scope')

/-- Functions that carry the same scope are a declaration and the body that continues in it. -/
theorem History.shared (h : History env es w) (coherent : w.index.Coherent)
    (hn : n ∈ es.map (·.1)) (hm : m ∈ es.map (·.1)) (hne : n ≠ m)
    (kind : env.tree.kind n = .functionStatement) (kind' : env.tree.kind m = .functionStatement)
    {o : ScopeId} (scope : (w.notes.get n).scope = some o)
    (scope' : (w.notes.get m).scope = some o) :
    Continues env (es.map (·.1)) n m ∨ Continues env (es.map (·.1)) m n := by
  obtain ⟨i, s, r, carries, forwardNode, placed⟩ := h.carries n hn kind
  obtain ⟨i', s', r', carries', forwardNode', placed'⟩ := h.carries m hm kind'
  obtain ⟨v, hv, routine⟩ := carries.routine_eq coherent scope
  obtain ⟨v', hv', routine'⟩ := carries'.routine_eq coherent scope'
  rw [hv] at hv'
  cases hv'
  rw [routine] at routine'
  cases routine'
  have symbol := carries'.symbol
  rw [carries.symbol] at symbol
  cases symbol
  have routines := carries'.kind
  rw [carries.kind] at routines
  cases routines
  have nodes := forwardNode.symm.trans forwardNode'
  unfold forwardNode? at nodes
  by_cases forward : env.tree.hasKeyword n .forwards = true
  · by_cases forward' : env.tree.hasKeyword m .forwards = true
    · rw [if_pos forward, if_pos forward'] at nodes
      exact absurd (Option.some.inj nodes) hne
    · rw [if_pos forward, if_neg forward'] at nodes
      exact .inr (h.continues hm kind' kind scope' scope nodes.symm)
  · by_cases forward' : env.tree.hasKeyword m .forwards = true
    · rw [if_neg forward, if_pos forward'] at nodes
      exact .inl (h.continues hn kind kind' scope scope' nodes)
    · have same := (placed (absurd · forward)).symm.trans (placed' (absurd · forward'))
      exact absurd (Option.some.inj same) hne

end History

end Walk

namespace CompilationUnit

open Walk

variable {catalog : Catalog} {types : TypeRegistry} {options : Options}

/-- When an analysis succeeds, every function carries a routine with its scope. A function that
takes up a FORWARD declaration and lists no parameters carries those of the declaration, and nothing
new comes with it; every other function gets new ones. The FORWARD node of the routine is that of
the declaration. Functions share a scope only in this way, and a declaration is taken up once at
most. -/
theorem analyze_functions {u u' : CompilationUnit} {index : UnitIndex}
    (hok : u.analyze catalog types options = (.ok index, u')) :
    let env : Env := { tree := u.tree, catalog, types, options }
    let es := unitEntries env u.notes
    let ns := es.map (·.1)
    (∀ n v, (n, v) ∈ es → env.tree.kind n = .functionStatement →
      (∃ i s r, Carries index (u'.notes.get n) i s r ∧ r.forwardNode = env.tree.forwardNode? ns n ∧
        (env.tree.hasKeyword n .forwards = false → s.definitionNode = some n)) ∧
      (∀ m, Continues env ns n m →
        (u'.notes.get n).heading = (u'.notes.get m).heading ∧ AddsNothing env n v) ∧
      ((∀ m, ¬ Continues env ns n m) → (u'.notes.get n).heading =
        (some v.index.symbols.next, some v.index.scopes.next, some v.index.blocks.next))) ∧
    (∀ n ∈ ns, ∀ m ∈ ns, n ≠ m → env.tree.kind n = .functionStatement →
      env.tree.kind m = .functionStatement →
      ∀ o, (u'.notes.get n).scope = some o → (u'.notes.get m).scope = some o →
        Continues env ns n m ∨ Continues env ns m n) ∧
    ∀ n ∈ ns, ∀ n' ∈ ns, env.tree.kind n = .functionStatement →
      env.tree.kind n' = .functionStatement →
      ∀ m, env.tree.declaration? ns n = some m → env.tree.declaration? ns n' = some m → n = n' := by
  intro env es ns
  obtain ⟨w, hw, rfl, rfl⟩ := analyze_ok catalog types options hok
  have history : History env es w := visitUnit_keep keeps_history hw (history_start u.notes)
  have coherent := ((ends_visitUnit env u.notes).ok hw).1.sound.coherent
  refine ⟨fun n v he kind => ⟨?_, ?_, ?_⟩, ?_, ?_⟩
  · obtain ⟨i, s, r, carries, forwardNode, placed⟩ :=
      history.carries n (List.mem_map_of_mem he) kind
    exact ⟨i, s, r, carries, forwardNode, fun body => placed (by simp [body])⟩
  · exact (history.entered n v he kind).continues
  · exact (history.entered n v he kind).fresh
  · exact fun n hn m hm hne kind kind' o => history.shared coherent hn hm hne kind kind'
  · exact fun n hn n' hn' kind kind' m =>
      ParseTree.declaration?_injective (unitEntries_nodup _ _) hn hn' kind kind'

/-- A FORWARD declaration, a body of it, and a further function of the name. -/
def forwardSample : ParseTree := .ofRows [
  (0, .functionStatement, ""), (1, .identifier, "f"), (1, .keyword .forwards, ""),
  (0, .functionStatement, ""), (4, .identifier, "f"),
  (0, .functionStatement, ""), (6, .identifier, "f")]

/-- In the sample, the body carries what its declaration carries. The further function, which comes
too late for the declaration, has a routine of its own. -/
theorem analyze_functions_forward :
    ∃ index u i s r, (ofTree forwardSample).analyze {} {} {} = (.ok index, u) ∧
      (u.notes.get ⟨4⟩).heading = (u.notes.get ⟨1⟩).heading ∧
      Carries index (u.notes.get ⟨6⟩) i s r ∧ r.forwardNode = none := by
  obtain ⟨index, hok⟩ :=
    exists_analyze_ok (u := ofTree forwardSample) {} {} {} (by decide +kernel)
  generalize ((ofTree forwardSample).analyze {} {} {}).2 = u at hok
  obtain ⟨each, -, -⟩ := analyze_functions hok
  let es := unitEntries { tree := (ofTree forwardSample).tree } (ofTree forwardSample).notes
  have nodes : es.map (·.1) = [⟨1⟩, ⟨2⟩, ⟨3⟩, ⟨4⟩, ⟨5⟩, ⟨6⟩, ⟨7⟩] := by decide +kernel
  have entered : ∀ k ∈ es.map (·.1), ∃ v, (k, v) ∈ es := by
    intro k hk
    obtain ⟨e, he, rfl⟩ := List.mem_map.1 hk
    exact ⟨e.2, he⟩
  obtain ⟨v, hv⟩ := entered ⟨4⟩ (by simp [nodes])
  obtain ⟨v', hv'⟩ := entered ⟨6⟩ (by simp [nodes])
  obtain ⟨-, continues, -⟩ := each ⟨4⟩ v hv (by decide +kernel)
  obtain ⟨⟨i, s, r, carries, forwardNode, -⟩, -, -⟩ := each ⟨6⟩ v' hv' (by decide +kernel)
  have takesUp : Continues { tree := (ofTree forwardSample).tree } (es.map (·.1)) ⟨4⟩ ⟨1⟩ := by
    rw [nodes]
    exact ⟨by decide +kernel, by decide +kernel⟩
  have late : (ofTree forwardSample).tree.forwardNode? (es.map (·.1)) ⟨6⟩ = none := by
    rw [nodes]
    decide +kernel
  exact ⟨index, u, i, s, r, hok, (continues ⟨1⟩ takesUp).1, carries, forwardNode.trans late⟩

end CompilationUnit

end AblResolve
