import AblResolve.Proofs.Accounting
import AblResolve.Proofs.Defaulting
import AblResolve.Proofs.Hierarchy
import AblResolve.Proofs.Reanalysis
/-!
Members of the class that a unit defines. `THIS-OBJECT:name` and `Class:name` look the name up as
any variable is looked up: from the current scope outwards. The class comes last, so the reference
leads to a variable of the class just when no scope on the way out defines a variable of the name.
-/
namespace AblResolve

namespace UnitIndex

variable {x : UnitIndex}

/-- The root is the last scope on every chain, and it is there once. -/
theorem ScopeTree.scopeChain_eq (tree : x.ScopeTree) : ∀ s : ScopeId, s.val < x.scopes.size →
    ∃ inner, x.scopeChain s = inner ++ [rootScope] ∧ rootScope ∉ inner := by
  refine tree.induct ?_ ?_
  · intro _ hnone
    exact ⟨[], scopeChain_of_none hnone, by simp⟩
  · rintro s p - hp older ⟨inner, hchain, hinner⟩
    refine ⟨s :: inner, by rw [scopeChain_of_some hp older, hchain]; rfl, ?_⟩
    simp only [List.mem_cons, not_or]
    refine ⟨?_, hinner⟩
    rintro rfl
    exact Nat.not_lt_zero _ older

/-- A scope between `s` and the root, or `s` itself, that defines a variable of the name. -/
def Hides (x : UnitIndex) (s : ScopeId) (name : String) (o : ScopeId) : Prop :=
  o ∈ x.scopeChain s ∧ o ≠ rootScope ∧ (x.findIn? o .variable name).isSome

variable {s : ScopeId} {name : String}

/-- A name that no inner scope defines leads to the root. -/
theorem ScopeTree.resolveVariable?_of_unhidden (tree : x.ScopeTree) (hs : s.val < x.scopes.size)
    (free : ∀ o, ¬ x.Hides s name o) :
    x.resolveVariable? s name = x.findIn? rootScope .variable name := by
  obtain ⟨inner, hchain, hroot⟩ := tree.scopeChain_eq s hs
  have hnone : inner.findSome? (fun o => x.findIn? o .variable name) = none := by
    refine List.findSome?_eq_none_iff.2 fun o ho => ?_
    have hne : o ≠ rootScope := fun h => hroot (h ▸ ho)
    by_contra hsome
    exact free o ⟨by simp [hchain, ho], hne, Option.isSome_iff_ne_none.2 hsome⟩
  rw [resolveVariable?, resolve?, hchain, List.findSome?_append, hnone]
  simp

/-- A name that an inner scope defines leads to a variable of such a scope. -/
theorem ScopeTree.resolveVariable?_of_hidden (tree : x.ScopeTree) (hs : s.val < x.scopes.size)
    {o : ScopeId} (hidden : x.Hides s name o) : ∃ o', x.Hides s name o' ∧
      x.resolveVariable? s name = x.findIn? o' .variable name := by
  obtain ⟨inner, hchain, hroot⟩ := tree.scopeChain_eq s hs
  obtain ⟨ho, hne, hsome⟩ := hidden
  have hinner : o ∈ inner := by simpa [hchain, hne] using ho
  cases hfind : inner.findSome? (fun o => x.findIn? o .variable name) with
  | none => simp [List.findSome?_eq_none_iff.1 hfind o hinner] at hsome
  | some i =>
    obtain ⟨o', ho', hi⟩ := List.exists_of_findSome?_eq_some hfind
    refine ⟨o', ⟨by simp [hchain, ho'], fun h => hroot (h ▸ ho'), by simp [hi]⟩, ?_⟩
    rw [hi, resolveVariable?, resolve?, hchain, List.findSome?_append, hfind]
    rfl

/-- A hidden variable of the class is not the one that the name leads to. -/
theorem Coherent.resolveVariable?_ne_of_hidden (h : x.Coherent) (hs : s.val < x.scopes.size)
    {o : ScopeId} (hidden : x.Hides s name o) :
    x.resolveVariable? s name ≠ x.findIn? rootScope .variable name := by
  obtain ⟨o', ⟨-, hne, hsome⟩, hfound⟩ := h.scopeTree.resolveVariable?_of_hidden hs hidden
  obtain ⟨i, hi⟩ := Option.isSome_iff_exists.1 hsome
  rw [hfound, hi]
  intro hroot
  have howner := (h.names_of_findIn? hi).owner?
  rw [(h.names_of_findIn? hroot.symm).owner?] at howner
  exact hne (Option.some.inj howner).symm

end UnitIndex

namespace Walk

open UnitIndex

/-- The reference at node `n` names `m` as a member of the object itself, or of the class that the
unit defines. -/
structure NamesMember (env : Env) (n : NodeId) (w : Walk) (m : NodeId) : Prop where
  kind : env.tree.kind n = .widgetAttribute
  identifier : env.tree.kind m = .identifier
  target : ∃ target rest, env.tree.children n = target :: m :: rest ∧
    (env.tree.kind target = .keyword .thisObject ∨ env.tree.kind target = .field ∧
      ∃ name, w.index.classShortName? = some name ∧ Text.same name (env.tree.text target) = true)

/-- Node `m` has got what was found for its name, which has been counted as a use under `q`. If
nothing was found, nothing has been written and nothing counted. -/
structure Notes (m : NodeId) (q : Qualifier) (found : Option SymbolId) (w w' : Walk) : Prop where
  notes : w'.notes = match found with
    | some s => w.notes.update m fun a => { a with symbol := some s, qualifier := some q }
    | none => w.notes
  references : ∀ i p, (w'.index.references i).get p =
    (w.index.references i).get p + (decide (found = some i ∧ q = p)).toNat

section Enter

variable {env : Env} {n m : NodeId} {w : Walk}

theorem NamesMember.child (h : NamesMember env n w m) : m ∈ env.tree.children n := by
  obtain ⟨target, rest, hchildren, -⟩ := h.target
  simp [hchildren]

theorem NamesMember.isSelfReference (h : NamesMember env n w m) :
    ∃ target rest, env.tree.childList n = target :: rest ∧
      Walk.isSelfReference env w.index target.val = true ∧ memberNode? env n rest = some m := by
  obtain ⟨target, rest, hchildren, self⟩ := h.target
  have hvals : (env.tree.childList n).map (·.val) = target :: m :: rest := by
    rw [ParseTree.childList, List.attach_map_subtype_val, hchildren]
  obtain ⟨c, cs, hlist, rfl, hcs⟩ := List.map_eq_cons_iff.1 hvals
  obtain ⟨c', cs', rfl, rfl, -⟩ := List.map_eq_cons_iff.1 hcs
  refine ⟨c, c' :: cs', hlist, ?_, by simp [memberNode?, h.identifier]⟩
  unfold Walk.isSelfReference
  rcases self with hkind | ⟨hkind, name, hname, hsame⟩
  · rw [hkind]
  · simp only [hkind, hname, hsame]

theorem ends_referToMember_notes (hs : Sound w) (q : Qualifier) :
    Ends (referToMember env m q) w Never fun _ w' =>
      Notes m q (w.index.resolveVariable? w.scope (env.tree.text m)) w w' := by
  unfold referToMember
  rw [ends_bind, ends_theIndex, ends_bind, ends_currentScope hs]
  cases hfind : w.index.resolveVariable? w.scope (env.tree.text m) with
  | none => exact ⟨rfl, by simp⟩
  | some s =>
    have sees := (hs.coherent.resolve? hfind).1
    dsimp only
    rw [ends_bind, ends_noteReference sees.lt_size, ends_annotate]
    refine ⟨rfl, fun i p => ?_⟩
    rw [get_references_counted sees.lt_size]
    simp

/-- What the reference does with the member, whatever is around. -/
theorem enter_member (hs : Sound w) (h : NamesMember env n w m) :
    ∃ plan w', enter env n w = .ok plan w' ∧ Notes m (w.qualifierAt n)
      (w.index.resolveVariable? w.scope (env.tree.text m)) w w' := by
  have asks : (env.tree.kind n).consumesQualifier := by simp [h.kind]
  obtain ⟨target, rest, hchildren, self, hmember⟩ := h.isSelfReference
  obtain ⟨-, moves, -⟩ := (ends_takeQualifier env n).ok (takeQualifier_eq asks)
  have found : (w.withDefaulted (w.defaultedAt env n)).index.resolveVariable? w.scope
      (env.tree.text m) = w.index.resolveVariable? w.scope (env.tree.text m) :=
    resolve?_congr (by rfl) w.scope .variable (env.tree.text m)
  have ends : Ends (enter env n) w Never fun _ w' => Notes m (w.qualifierAt n)
      (w.index.resolveVariable? w.scope (env.tree.text m)) w w' := by
    simp only [enter, h.kind]
    unfold enterWidgetAttribute
    rw [ends_bind, ends_takeQualifier_asks asks, hchildren]
    dsimp only
    rw [ends_bind, ends_theIndex, if_pos (by exact self), hmember]
    dsimp only
    rw [ends_bind]
    rw [← found]
    exact (ends_referToMember_notes (moves.runs.sound hs) _).imp fun _ w' noted =>
      ⟨noted.notes, noted.references⟩
  exact ends.exists_ok

end Enter

end Walk

namespace CompilationUnit

open Walk UnitIndex

/-- References to members of the class. The name after `THIS-OBJECT:` or `Class:` gets the variable
that it leads to from the current scope, if there is one, and the use is counted as the reference
has been told; this is what is still written there in the end. It is the variable of the class just
when no scope on the way out to the class defines a variable of that name. -/
theorem analyze_members (catalog : Catalog) (types : TypeRegistry) (options : Options)
    (u : CompilationUnit) :
    let env : Env := { tree := u.tree, catalog, types, options }
    ∀ n v m, (n, v) ∈ unitEntries env u.notes → NamesMember env n v m →
      let found := v.index.resolveVariable? v.scope (u.tree.text m)
      (∃ plan v', enter env n v = .ok plan v' ∧ Notes m (v.qualifierAt n) found v v' ∧
        (∀ w, visit env n v = .ok () w → meaning (w.notes.get m) = meaning (v'.notes.get m)) ∧
        ∀ index u', u.analyze catalog types options = (.ok index, u') →
          meaning (u'.notes.get m) = meaning (v'.notes.get m)) ∧
      (found = v.index.findIn? rootScope .variable (u.tree.text m) ↔
        ∀ o, ¬ v.index.Hides v.scope (u.tree.text m) o) ∧
      ∀ o, v.index.Hides v.scope (u.tree.text m) o → ∃ o',
        v.index.Hides v.scope (u.tree.text m) o' ∧
          found = v.index.findIn? o' .variable (u.tree.text m) := by
  intro env n v m he names found
  have hs := sound_of_mem_unitEntries he
  have tree := hs.coherent.scopeTree
  obtain ⟨plan, v', henter, noted⟩ := enter_member hs names
  have member : Names env n m := .member names.child names.identifier
  refine ⟨⟨plan, v', henter, noted, fun w hok => ?_, fun index u' hok => ?_⟩, ⟨?_, ?_⟩, ?_⟩
  · exact (visit_settles env n hs hok n v plan v' mem_entries_self henter).2 m member
  · obtain ⟨w, hw, -, rfl⟩ := analyze_ok catalog types options hok
    exact (visitUnit_settles hw n v plan v' he henter).2 m member
  · exact fun hfound o hidden => hs.coherent.resolveVariable?_ne_of_hidden hs.scope_lt hidden hfound
  · exact tree.resolveVariable?_of_unhidden hs.scope_lt
  · exact fun o hidden => tree.resolveVariable?_of_hidden hs.scope_lt hidden

/-- A class with a variable `x`, and a method that defines one of its own and assigns to
`THIS-OBJECT:x`. -/
def memberSample : ParseTree := .ofRows [
  (0, .classStatement, ""), (1, .typeName, "acme.Counter"), (1, .defineVariable, ""),
  (3, .identifier, "x"), (1, .methodStatement, ""), (5, .identifier, "reset"),
  (5, .defineVariable, ""), (7, .identifier, "x"), (5, .assignStatement, ""),
  (9, .assignEqual, ""), (10, .widgetAttribute, ""), (11, .keyword .thisObject, "THIS-OBJECT"),
  (11, .identifier, "x")]

/-- In the sample, the reference leads to the variable of the method. -/
theorem analyze_members_hidden :
    let env : Env := { tree := memberSample, catalog := {}, types := {}, options := {} }
    ∃ v plan v', ((⟨11⟩, v) : NodeId × Walk) ∈ unitEntries env (.blank memberSample.size) ∧
      NamesMember env ⟨11⟩ v ⟨13⟩ ∧ enter env ⟨11⟩ v = .ok plan v' ∧
      v.index.findIn? rootScope .variable "x" = some ⟨1⟩ ∧
      (v'.notes.get ⟨13⟩).symbol = some ⟨3⟩ := by
  intro env
  have hidden : (unitEntries env (.blank memberSample.size)).any fun e => e.1 = ⟨11⟩ &&
      e.2.index.resolveVariable? e.2.scope "x" = some ⟨3⟩ &&
      e.2.index.findIn? rootScope .variable "x" = some ⟨1⟩ := by
    decide +kernel
  obtain ⟨⟨n, v⟩, he, hv⟩ := List.any_eq_true.1 hidden
  simp only [Bool.and_eq_true, decide_eq_true_eq] at hv
  obtain ⟨⟨rfl, hfound⟩, hroot⟩ := hv
  have names : NamesMember env ⟨11⟩ v ⟨13⟩ :=
    ⟨by decide, by decide, ⟨12⟩, [], by decide, .inl (by decide)⟩
  obtain ⟨⟨plan, v', henter, noted, -⟩, -⟩ :=
    analyze_members {} {} {} (.ofTree memberSample) ⟨11⟩ v ⟨13⟩ he names
  have text : memberSample.text ⟨13⟩ = "x" := by decide
  refine ⟨v, plan, v', he, names, henter, hroot, ?_⟩
  rw [noted.notes]
  simp only [ofTree, text, hfound, Annotations.get_update_self]

end CompilationUnit

end AblResolve
