import AblResolve.Proofs.Defaulting
import AblResolve.Proofs.Flags
import AblResolve.Proofs.Hints
/-!
Fields in lists and the records just named. A field in a list stands for a field of the table of the
record that the list is about, whatever else has its name; if the table has no such field, the field
stands for nothing. Only the root is an exception: its children are visited without being told
anything, so that pairs of fields below it are looked up like other fields.
-/
namespace AblResolve

namespace Walk

open UnitIndex ParseTree

variable {env : Env} {n : NodeId} {w w' : Walk} {es : List (NodeId × Walk)} {b : SymbolId}

/-- The lists whose fields belong to the record before the list. -/
def listsFields : NodeKind → Bool
  | .fieldsPhrase | .exceptPhrase | .usingPhrase | .keyFields => true
  | _ => false

/-- Node `n` stands in a list of fields, and `h` recalls the record that it belongs to when the
nodes in `before` have been entered. -/
inductive BelongsTo (env : Env) (before : List (NodeId × Walk)) (n : NodeId) : TableHint → Prop
  | list {p : NodeId} {v : Walk} {earlier between : List (NodeId × Walk)}
      (parent : env.tree.parent? n = some p) (kind : listsFields (env.tree.kind p))
      (met : before = earlier ++ (p, v) :: between)
      (named : ∃ e ∈ earlier, env.tree.kind e.1 = .record) : BelongsTo env before n .last
  | pair {p : NodeId} {i : Nat} (parent : env.tree.parent? n = some p)
      (kind : env.tree.kind p = .relationFields) (inner : p ≠ root)
      (position : ((env.tree.children p).filter (env.tree.kind · = .field))[i]? = some n) :
      BelongsTo env before n (pairHint i)

/-- The element at a position, if it has a property, with what is before and after it. -/
theorem exists_split {α : Type} {l : List α} {i : Nat} {p : α → Bool} (h : l[i]?.any p = true) :
    ∃ a, l = l.take i ++ a :: l.drop (i + 1) ∧ p a = true := by
  obtain ⟨a, ha, hp⟩ := (Option.any_eq_true _ _).1 h
  obtain ⟨lt, rfl⟩ := List.getElem?_eq_some_iff.1 ha
  refine ⟨_, ?_, hp⟩
  rw [← List.drop_eq_getElem_cons lt, List.take_append_drop]

/-- A field in a list after a record, found out from the nodes that have been entered. -/
theorem BelongsTo.of_any {before : List (NodeId × Walk)} {p : NodeId} {j : Nat}
    (parent : env.tree.parent? n = some p) (kind : listsFields (env.tree.kind p))
    (met : before[j]?.any (·.1 = p) = true ∧
      (before.take j).any (env.tree.kind ·.1 = .record) = true) : BelongsTo env before n .last := by
  obtain ⟨list, named⟩ := met
  obtain ⟨⟨q, v⟩, hbefore, hq⟩ := exists_split list
  cases of_decide_eq_true hq
  exact .list parent kind hbefore (by simpa using named)

/-! ### A field that has been given a hint -/

/-- What a field with a hint stands for: the field of the buffer, or nothing but the variable that
it defines. -/
structure Follows (env : Env) (n : NodeId) (b : SymbolId) (w w' : Walk) : Prop where
  found : ∀ found, w.index.bufferField? b (Text.lastSegment (env.tree.text n)) = some found →
    (w'.notes.get n).qualifier.isSome ∧ (w'.notes.get n).bufferScope = none ∧
    ∃ s, (w'.notes.get n).symbol = some s ∧ w'.index.asFieldBuffer? s = some ⟨b, found.item⟩
  missed : w.index.bufferField? b (Text.lastSegment (env.tree.text n)) = none →
    (w'.notes.get n).qualifier = (w.notes.get n).qualifier ∧ OwnSymbol env n w w'

/-- What is written on a field lasts, and so does the variable that it defines. -/
theorem OwnSymbol.later {v : Walk} (h : OwnSymbol env n w v)
    (same : (w'.notes.get n).symbol = (v.notes.get n).symbol) (ext : v.index.Extends w'.index) :
    OwnSymbol env n w w' := by
  unfold OwnSymbol at h ⊢
  split at h
  · rename_i inline
    obtain ⟨s, symbol, variable_⟩ := h
    rw [if_pos inline]
    exact ⟨s, same.trans symbol, ext.variableNode?_eq_some variable_⟩
  · rename_i plain
    rw [if_neg plain, same, h]

/-- The lookup of a field, after it has been entered in state `u`. -/
theorem resolveField_follows {u : Walk} {q : Qualifier} {h : TableHint} (hs : Sound u)
    (kind : env.tree.kind n = .field) (primed : Primed env n u w) (own : OwnSymbol env n u w)
    (hinted : u.hinted? h = some b) (hok : resolveField env n q h w = .ok () w') :
    Follows env n b u w' := by
  have before := primed.moves.runs
  have hsw := before.sound hs
  have hintedw : w.hinted? h = some b := (Moves.hinted? env n primed.moves h).trans hinted
  obtain ⟨t, ht⟩ := (hs.hinted? hinted).1
  -- what is done before the lookup changes neither the buffer nor its fields
  have unchanged := before.extends.bufferField?_eq ht primed.tables primed.fields
    (Text.lastSegment (env.tree.text n))
  cases resolveField_end hsw hok with
  | found unhinted | unknown unhinted =>
    rw [hintedw] at unhinted
    cases unhinted
  | lacking hint lacks misses =>
    rw [hintedw] at hint
    cases hint
    rw [unchanged] at lacks
    refine ⟨fun found has => ?_, fun _ => ?_⟩
    · rw [lacks] at has
      cases has
    · obtain ⟨notes, ext⟩ := (ends_missingField_notes hsw hintedw).ok misses
      refine ⟨?_, own.later (by rw [notes]) ext⟩
      rw [notes]
      exact before.qualifier kind
  | @hinted _ l v _ hint find annotates =>
    rw [hintedw] at hint
    cases hint
    obtain ⟨moves, hfound, -⟩ := (ends_fieldOfBuffer? env n hsw _).ok find
    obtain ⟨unbound, f, hf, carries⟩ := hfound l rfl
    have hs₁ := moves.runs.sound hsw
    have leads : v.Leads (env.tree.text n) h l.symbol none :=
      hs₁.leads_hinted ((Moves.hinted? env n moves h).trans hintedw) hf carries
    have ext := ((ends_annotateField env n hs₁ kind q (unbound ▸ leads)).ok annotates).extends
    obtain ⟨store, -, notes, -⟩ := annotateField_ok annotates
    cases fieldOfBuffer?_end env n hsw find with
    | field has moves' reached =>
      rw [unchanged] at has
      refine ⟨fun found' same => ?_, fun none => ?_⟩
      · rw [has] at same
        cases same
        rw [notes, Annotations.get_update_self]
        exact ⟨rfl, rfl, _, rfl, ext.asFieldBuffer? reached⟩
      · rw [has] at none
        cases none

theorem enterField_follows {plan : Plan env.tree n} (hs : Sound w) (kind : env.tree.kind n = .field)
    (keyword : env.tree.hasKeyword n .input = false) (hinted : w.hinted? (w.hintAt n) = some b)
    (hok : enterField env n w = .ok plan w') : Follows env n b w w' := by
  obtain ⟨v, primed, ⟨input, -⟩ | ⟨-, own, hresolve⟩⟩ := enterField_ok hs kind hok
  · rw [keyword] at input
    cases input
  · exact resolveField_follows hs kind primed own hinted hresolve

/-! ### The hint of a field in a list -/

theorem enter_listsFields {p : NodeId} (kind : listsFields (env.tree.kind p)) :
    ∃ q, enter env p = enterFieldList env p q := by
  cases hkind : env.tree.kind p <;> rw [hkind] at kind <;> try cases kind
  all_goals exact ⟨_, by simp only [enter, hkind]; rfl⟩

theorem isSome_recalled (named : ∃ e ∈ es, env.tree.kind e.1 = .record) :
    (recalled env es .last).isSome := by
  obtain ⟨e, he, kind⟩ := named
  have mem : e ∈ records env es := by simpa [records] using ⟨he, kind⟩
  cases hes : records env es with
  | nil =>
    rw [hes] at mem
    cases mem
  | cons first rest => simp [recalled, hes]

section Unit

variable {notes : Annotations} {before after : List (NodeId × Walk)} {v : Walk} {h : TableHint}

/-- The state in which a node is entered is that of the walk up to it. -/
theorem visitUnit_trail_before (hok : visitUnit env (start env notes) = .ok () w)
    (hes : unitEntries env notes = before ++ (n, v) :: after) :
    ∃ rs, Trail env (start env notes) before rs v := by
  obtain ⟨rs, trail, -⟩ := visitUnit_trail hok
  rw [hes] at trail
  exact trail.before

/-- A field in a list is told to which record it belongs. -/
theorem BelongsTo.hintAt (belongs : BelongsTo env before n h)
    (hok : visitUnit env (start env notes) = .ok () w)
    (hes : unitEntries env notes = before ++ (n, v) :: after) (field : env.tree.kind n = .field) :
    v.hintAt n = h := by
  have he : (n, v) ∈ unitEntries env notes := by simp [hes]
  suffices given : v.hints.find? n = some h by rw [Walk.hintAt, given]; rfl
  cases belongs with
  | @list p vp earlier between parent kind met named =>
    rw [met, List.append_assoc, List.cons_append] at hes
    have hp : (p, vp) ∈ unitEntries env notes := by simp [hes]
    obtain ⟨vp', hp', plan, v', henter, step, mem, child, given⟩ :=
      visitUnit_planned hok he parent (ne_root_of_mem_unitEntries hp)
    cases List.inj_on_of_nodup_map (unitEntries_nodup _ _) hp hp' rfl
    obtain ⟨rs, trail⟩ := visitUnit_trail_before hok hes
    have last : vp.lastTable.isSome := trail.hinted_of_recalled (sound_start env notes) .last
      (isSome_recalled named)
    obtain ⟨q, same⟩ := enter_listsFields kind
    rw [same] at henter
    exact given .last (hint_of_enterFieldList henter last mem (by rw [child]; exact field))
  | @pair p i parent kind inner position =>
    obtain ⟨vp, hp, plan, v', henter, step, mem, child, given⟩ :=
      visitUnit_planned hok he parent inner
    have same : enter env p = pure (relationPlan env p) := by simp only [enter, kind]
    rw [same] at henter
    cases henter
    exact given _ (hint_of_mem_relationPlan mem (by rw [child]; exact position))

/-- What a field stands for lasts. -/
theorem Follows.later {v' : Walk} (h : Follows env n b v v')
    (same : w.notes.get n = v'.notes.get n) (ext : v'.index.Extends w.index) :
    Follows env n b v w := by
  constructor
  · intro found hfound
    obtain ⟨qualifier, unbound, s, symbol, reach⟩ := h.found found hfound
    rw [same]
    exact ⟨qualifier, unbound, s, symbol, ext.asFieldBuffer? reach⟩
  · intro none
    obtain ⟨qualifier, own⟩ := h.missed none
    exact ⟨by rw [same, qualifier], own.later (by rw [same]) ext⟩

/-- A field in a list follows the buffer of the record that the list is about. -/
theorem visitUnit_listed {r : NodeId} {vr : Walk}
    (hok : visitUnit env (start env notes) = .ok () w)
    (hes : unitEntries env notes = before ++ (n, v) :: after) (field : env.tree.kind n = .field)
    (keyword : env.tree.hasKeyword n .input = false) (belongs : BelongsTo env before n h)
    (recalls : recalled env before h = some (r, vr)) :
    v.notes.get n = notes.get n ∧ ∃ b, (w.notes.get r).symbol = some b ∧ Follows env n b v w := by
  have he : (n, v) ∈ unitEntries env notes := by simp [hes]
  have hs := sound_of_mem_unitEntries he
  have start := sound_start env notes
  obtain ⟨rs, trail⟩ := visitUnit_trail_before hok hes
  obtain ⟨b, hinted⟩ := Option.isSome_iff_exists.1
    (trail.hinted_of_recalled start h (by rw [recalls]; rfl))
  obtain ⟨e, recalls', stands⟩ := trail.recalls start (fun h => by cases h <;> rfl) h b hinted
  cases recalls.symm.trans recalls'
  obtain ⟨hr, record⟩ := mem_of_recalled recalls
  have her : (r, vr) ∈ unitEntries env notes := by simp [hes, hr]
  have settles := visitUnit_settles hok
  obtain ⟨symbol, -⟩ := settles.standsFor her (sound_of_mem_unitEntries her) record stands
  obtain ⟨rs', whole, -⟩ := visitUnit_trail hok
  obtain ⟨plan, v', henter⟩ := whole.entered _ he
  obtain ⟨first, lasts⟩ :=
    whole.field_lasts start (unitEntries_nodup _ _) field v plan v' he henter
  have ext := (settles n v plan v' he henter).1
  rw [enter_field field] at henter
  have given : v.hinted? (v.hintAt n) = some b := by rw [belongs.hintAt hok hes field, hinted]
  refine ⟨?_, b, symbol, (enterField_follows hs field keyword given henter).later lasts ext⟩
  rw [first, Walk.start, Annotations.get_update_of_ne (ne_root_of_mem_unitEntries he).symm]

end Unit

end Walk

namespace CompilationUnit

open UnitIndex Walk ParseTree

variable (catalog : Catalog) (types : TypeRegistry) (options : Options)

/-- A field in a list that belongs to a record is given a qualifier if and only if the table of the
record's buffer has a field of its name when it is met, and then it stands for this field of this
buffer, which is not bound to a block for it. If the table has no such field, it stands for nothing,
unless it is flagged as the definition of a variable: then it stands for the variable that it has
defined. -/
theorem analyze_ofTree_listed {tree : ParseTree} {index : UnitIndex} {u : CompilationUnit}
    (hok : (ofTree tree).analyze catalog types options = (.ok index, u)) :
    let env : Env := { tree, catalog, types, options }
    ∀ before n v after h r vr, unitEntries env (.blank tree.size) = before ++ (n, v) :: after →
      tree.kind n = .field → tree.hasKeyword n .input = false → BelongsTo env before n h →
      recalled env before h = some (r, vr) →
      let found (b : SymbolId) := v.index.bufferField? b (Text.lastSegment (tree.text n))
      ∃ b, (u.notes.get r).symbol = some b ∧
        ((u.notes.get n).qualifier.isSome ↔ (found b).isSome) ∧
        (∀ f, found b = some f → (u.notes.get n).bufferScope = none ∧
          ∃ s, (u.notes.get n).symbol = some s ∧ index.asFieldBuffer? s = some ⟨b, f.item⟩) ∧
        (found b = none → if tree.definesInline n then
            ∃ s, (u.notes.get n).symbol = some s ∧ index.variableNode? s = some n
          else (u.notes.get n).symbol = none) := by
  intro env before n v after h r vr hes field keyword belongs recalls found
  obtain ⟨w, hw, rfl, rfl⟩ := analyze_ok catalog types options hok
  obtain ⟨clean, b, symbol, follows⟩ :=
    @visitUnit_listed env n w _ before after v h r vr hw hes field keyword belongs recalls
  have blank : v.notes.get n = {} := clean.trans (Annotations.get_blank _ _)
  refine ⟨b, symbol, ?_, fun f hf => (follows.found f hf).2, fun none => ?_⟩
  · cases hf : found b with
    | some f => exact iff_of_true (follows.found f hf).1 rfl
    | none =>
      rw [(follows.missed hf).1, blank]
      exact Iff.rfl
  · have own := (follows.missed none).2
    rwa [OwnSymbol, blank] at own

/-- Two records, an EXCEPT list after the first of them, and a pair of fields after the second. A
variable has the name of the field in the list. -/
def pairedSample : Env where
  tree := .ofRows [
    (0, .defineVariable, ""), (1, .identifier, "Name"), (0, .recordFunction, ""),
    (3, .record, "cust"), (0, .exceptPhrase, ""), (5, .field, "Name"), (0, .recordFunction, ""),
    (7, .record, "ord"), (0, .relationFields, ""), (9, .field, "CustNum"), (9, .field, "CustNum")]
  catalog := ⟨[⟨"sports", [Catalog.Sample.customer, Catalog.Sample.order]⟩]⟩

/-- The nodes of the sample, in the order in which they are entered. -/
def pairedEntries : List (NodeId × Walk) := unitEntries pairedSample (.blank 12)

/-- In the sample, the field in the list and the first of the pair stand for fields of the customer,
and the second of the pair stands for a field of the order. -/
theorem analyze_ofTree_listed_sample :
    ∃ index u b c, (ofTree pairedSample.tree).analyze pairedSample.catalog {} {} = (.ok index, u) ∧
      (u.notes.get ⟨4⟩).symbol = some b ∧ (u.notes.get ⟨8⟩).symbol = some c ∧
      (∃ s f, (u.notes.get ⟨6⟩).symbol = some s ∧ index.asFieldBuffer? s = some ⟨b, f⟩) ∧
      (∃ s f, (u.notes.get ⟨10⟩).symbol = some s ∧ index.asFieldBuffer? s = some ⟨b, f⟩) ∧
      ∃ s f, (u.notes.get ⟨11⟩).symbol = some s ∧ index.asFieldBuffer? s = some ⟨c, f⟩ := by
  obtain ⟨index, hok⟩ :=
    exists_analyze_ok (u := ofTree pairedSample.tree) pairedSample.catalog {} {}
      (by decide +kernel)
  obtain ⟨q₆, q₁₀, q₁₁⟩ :
      let notes := ((ofTree pairedSample.tree).analyze pairedSample.catalog {} {}).2.notes
      (notes.get ⟨6⟩).qualifier.isSome = true ∧ (notes.get ⟨10⟩).qualifier.isSome = true ∧
        (notes.get ⟨11⟩).qualifier.isSome = true := by
    decide +kernel
  generalize ((ofTree pairedSample.tree).analyze pairedSample.catalog {} {}).2 = u at hok q₆ q₁₀ q₁₁
  have stands (i : Nat) (h : TableHint) (r : NodeId)
      (met : pairedEntries[i]?.any (·.1 = ⟨i + 1⟩) = true ∧
        (recalled pairedSample (pairedEntries.take i) h).any (·.1 = r) = true)
      (field : pairedSample.tree.kind ⟨i + 1⟩ = .field)
      (keyword : pairedSample.tree.hasKeyword ⟨i + 1⟩ .input = false)
      (belongs : BelongsTo pairedSample (pairedEntries.take i) ⟨i + 1⟩ h)
      (qualified : (u.notes.get ⟨i + 1⟩).qualifier.isSome = true) :
      ∃ b, (u.notes.get r).symbol = some b ∧ ∃ s f, (u.notes.get ⟨i + 1⟩).symbol = some s ∧
        index.asFieldBuffer? s = some ⟨b, f⟩ := by
    obtain ⟨⟨n, v⟩, hes, hn⟩ := exists_split met.1
    cases of_decide_eq_true hn
    obtain ⟨⟨m, vr⟩, hr, hm⟩ := (Option.any_eq_true _ _).1 met.2
    cases of_decide_eq_true hm
    obtain ⟨b, symbol, asks, reach, -⟩ := analyze_ofTree_listed pairedSample.catalog {} {} hok
      _ _ v _ h m vr hes field keyword belongs hr
    obtain ⟨f, hf⟩ := Option.isSome_iff_exists.1 (asks.1 qualified)
    obtain ⟨-, s, hs, isField⟩ := reach f hf
    exact ⟨b, symbol, s, f.item, hs, isField⟩
  obtain ⟨b, hb, first⟩ := stands 5 .last ⟨4⟩ (by decide +kernel) rfl rfl
    (.of_any (p := ⟨5⟩) (j := 4) rfl rfl (by decide +kernel)) q₆
  obtain ⟨b', hb', parent⟩ := stands 9 .previous ⟨4⟩ (by decide +kernel) rfl rfl
    (.pair (p := ⟨9⟩) (i := 0) rfl rfl nofun rfl) q₁₀
  obtain ⟨c, hc, child⟩ := stands 10 .last ⟨8⟩ (by decide +kernel) rfl rfl
    (.pair (p := ⟨9⟩) (i := 1) rfl rfl nofun rfl) q₁₁
  cases hb.symm.trans hb'
  exact ⟨index, u, b, c, hok, hb, hc, first, parent, child⟩

/-- A pair of fields at the root, of which there is only the first, and an EXCEPT list whose field
defines a variable. -/
def unlistedSample : Env where
  tree := [(0, .record, "cust", false), (0, .record, "ord", false), (0, .field, "OrderNum", false),
      (0, .exceptPhrase, "", false), (4, .field, "Price", true)].foldl
    (fun t (parent, kind, text, definesInline) =>
      if h : parent < t.size then t.addChild ⟨parent⟩ h kind (.made text) definesInline else t)
    (.ofRoot .relationFields (.made "") ["sample.p"])
  catalog := pairedSample.catalog

/-- When node `n` is entered, the table of the record that `h` recalls does not have the field. -/
def LacksListed (env : Env) (u : CompilationUnit) (before : List (NodeId × Walk)) (n : NodeId)
    (v : Walk) (h : TableHint) : Prop :=
  ∃ r vr b, recalled env before h = some (r, vr) ∧ (u.notes.get r).symbol = some b ∧
    v.index.bufferField? b (Text.lastSegment (env.tree.text n)) = none

theorem exists_lacksListed {env : Env} {u : CompilationUnit} {es : List (NodeId × Walk)} {i : Nat}
    {n r : NodeId} {h : TableHint} {b : SymbolId}
    (met : es[i]?.any (fun e => e.1 = n &&
      (e.2.index.bufferField? b (Text.lastSegment (env.tree.text n))).isNone) = true)
    (recalls : (recalled env (es.take i) h).any (·.1 = r) = true)
    (symbol : (u.notes.get r).symbol = some b) :
    ∃ v, es = es.take i ++ (n, v) :: es.drop (i + 1) ∧ LacksListed env u (es.take i) n v h := by
  obtain ⟨⟨m, v⟩, hes, hv⟩ := exists_split met
  obtain ⟨hm, none⟩ := (Bool.and_eq_true _ _).mp hv
  cases of_decide_eq_true hm
  obtain ⟨⟨r', vr⟩, hr, hr'⟩ := (Option.any_eq_true _ _).1 recalls
  cases of_decide_eq_true hr'
  exact ⟨v, hes, _, vr, b, hr, symbol, Option.isNone_iff_eq_none.1 none⟩

/-- In the sample, neither the customer has an order number nor the order has a price, but the field
at the root stands for that of the order, and the field in the list stands for a variable. -/
theorem analyze_ofTree_unlisted :
    let t := unlistedSample.tree
    let es := unitEntries unlistedSample (.blank 6)
    ∃ index u, (ofTree t).analyze unlistedSample.catalog {} {} = (.ok index, u) ∧
      (t.kind ⟨3⟩ = .field ∧ t.hasKeyword ⟨3⟩ .input = false ∧ t.parent? ⟨3⟩ = some root ∧
        t.kind root = .relationFields ∧
        ((t.children root).filter (t.kind · = .field))[0]? = some ⟨3⟩ ∧
        ∃ before v after, es = before ++ (⟨3⟩, v) :: after ∧
          LacksListed unlistedSample u before ⟨3⟩ v .previous ∧
          (u.notes.get ⟨3⟩).qualifier = some .ref) ∧
      t.kind ⟨5⟩ = .field ∧ t.hasKeyword ⟨5⟩ .input = false ∧
        ∃ before v after, es = before ++ (⟨5⟩, v) :: after ∧
          BelongsTo unlistedSample before ⟨5⟩ .last ∧
          LacksListed unlistedSample u before ⟨5⟩ v .last ∧
          ∃ s, (u.notes.get ⟨5⟩).symbol = some s ∧ index.variableNode? s = some ⟨5⟩ := by
  intro t es
  obtain ⟨index, hok, variable_⟩ :=
    exists_analyze_ok_and (u := ofTree t) unlistedSample.catalog {} {}
      (P := fun x => x.variableNode? ⟨4⟩ = some ⟨5⟩) (by decide +kernel)
  obtain ⟨customer, order, qualifier, own⟩ :
      let notes := ((ofTree unlistedSample.tree).analyze unlistedSample.catalog {} {}).2.notes
      (notes.get ⟨1⟩).symbol = some ⟨1⟩ ∧ (notes.get ⟨2⟩).symbol = some ⟨2⟩ ∧
        (notes.get ⟨3⟩).qualifier = some .ref ∧ (notes.get ⟨5⟩).symbol = some ⟨4⟩ := by
    decide +kernel
  obtain ⟨v, hes, lacks⟩ := @exists_lacksListed unlistedSample _ es 2 ⟨3⟩ ⟨1⟩ .previous ⟨1⟩
    (by decide +kernel) (by decide +kernel) customer
  obtain ⟨v', hes', lacks'⟩ := @exists_lacksListed unlistedSample _ es 4 ⟨5⟩ ⟨2⟩ .last ⟨2⟩
    (by decide +kernel) (by decide +kernel) order
  have listed : BelongsTo unlistedSample (es.take 4) ⟨5⟩ .last :=
    .of_any (p := ⟨4⟩) (j := 3) rfl rfl (by decide +kernel)
  exact ⟨index, _, hok, ⟨rfl, rfl, rfl, rfl, rfl, _, v, _, hes, lacks, qualifier⟩, rfl, rfl, _, v',
    _, hes', listed, lacks', _, own, variable_⟩

end CompilationUnit

end AblResolve
