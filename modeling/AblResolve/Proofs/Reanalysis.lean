import AblResolve.Proofs.OverwritingPlans
import AblResolve.Proofs.Settled
/-!
Analysing a tree on which something is written. What is written there is read in few places: the
fields that are asked, after their visit, what they stand for. A field that has been found to stand
for something answers as it would on any other tree, since that was written over whatever there
was. A field that was found to stand for nothing answers with what was written on it before; so two
analyses come to the same if the same was written on all such fields.
-/
namespace AblResolve

namespace Walk

open UnitIndex ParseTree

variable {env : Env} {n c d f : NodeId} {w₀ w w' : Walk} {leave : List Action}
  {step : Step env.tree n} {steps rest : List (Step env.tree n)} {done : List NodeId}
  {o o' : Annotations} {es es' : List (NodeId × Walk)}

/-! ### Fields that are asked what they stand for -/

/-- A field that is asked what it stands for, and that was found to stand for nothing when it was
entered. -/
def AskedInVain (env : Env) (es : List (NodeId × Walk)) (f : NodeId) : Prop :=
  ReadBack env f ∧ ∃ v plan v', (f, v) ∈ es ∧ enter env f v = .ok plan v' ∧
    (v'.notes.get f).symbol = none

/-- The same symbols were written on the fields that are asked in vain. -/
def Agreed (env : Env) (o o' : Annotations) (es : List (NodeId × Walk)) : Prop :=
  ∀ f, AskedInVain env es f → (o'.get f).symbol = (o.get f).symbol

theorem Agreed.mono (h : Agreed env o o' es) (sub : ∀ e ∈ es', e ∈ es) : Agreed env o o' es' := by
  rintro f ⟨asked, v, plan, v', he, entered⟩
  exact h f ⟨asked, v, plan, v', sub _ he, entered⟩

theorem ReadBack.kind (h : ReadBack env f) : env.tree.kind f = .field := by
  cases h with
  | like hkind first => simpa using List.find?_some first
  | handle hkind child field => exact field
  | column hkind column =>
    obtain ⟨display, -, hitem⟩ := List.mem_flatMap.1 column
    obtain ⟨item, -, heq⟩ := List.mem_filterMap.1 hitem
    split at heq
    · rename_i hfield
      exact Option.some.inj heq ▸ hfield
    · simpa using List.find?_some heq
    · cases heq

/-- A visit of node `c` has succeeded and has entered some of the nodes in `es`. -/
def VisitedIn (env : Env) (es : List (NodeId × Walk)) (c : NodeId) : Prop :=
  ∃ w w', Sound w ∧ visit env c w = .ok () w' ∧ ∀ e ∈ entries env c w, e ∈ es

theorem mem_entries_self : (n, w) ∈ entries env n w := by
  rw [entries]
  exact List.mem_cons_self

theorem VisitedIn.entered (h : VisitedIn env es c) :
    ∃ v plan v', (c, v) ∈ es ∧ enter env c v = .ok plan v' := by
  obtain ⟨w, w', hs, hok, sub⟩ := h
  obtain ⟨plan, v', henter, -⟩ := visit_tour hs hok
  exact ⟨w, plan, v', sub _ mem_entries_self, henter⟩

theorem Tour.visitedIn (tour : Tour env n w₀ steps w w') (hc : c ∈ targets steps) :
    VisitedIn env (stepsEntries env steps w) c := by
  induction tour with
  | leave => simp [targets] at hc
  | step readies began hvisit visited after uses once field hentries idle listed tour ih =>
    rw [hentries]
    rcases List.mem_cons.1 hc with rfl | hc
    · exact ⟨_, _, began.sound, hvisit, fun e he => List.mem_append_left _ he⟩
    · obtain ⟨v, v', hs, hok, sub⟩ := ih hc
      exact ⟨v, v', hs, hok, fun e he => List.mem_append_right _ (sub e he)⟩

/-- The children of a form item and of the list of a browse are visited, too. -/
theorem VisitedIn.child (h : VisitedIn env es c)
    (kind : env.tree.kind c = .browseDisplay ∨ env.tree.kind c = .formItem)
    (hd : d ∈ env.tree.children c) : VisitedIn env es d := by
  obtain ⟨w, w', hs, hok, sub⟩ := h
  obtain ⟨plan, v, henter, -, tour⟩ := visit_tour hs hok
  rw [entries_of_ok henter] at sub
  have all : Yields (enter env c) fun plan => d ∈ targets plan.steps := by
    have qualified : ∀ q, d ∈ targets (qualifiedSteps env.tree c q) := fun q =>
      List.mem_map.2 ⟨_, List.mem_map_of_mem (List.mem_attach _ ⟨d, hd⟩), rfl⟩
    rcases kind with kind | kind
    · simp only [enter, kind]
      exact .pure (qualified .symbol)
    · simp only [enter, kind]
      exact .bind fun q => .bind fun _ => .pure (qualified q)
  obtain ⟨v, v', hs, hok, sub'⟩ := tour.visitedIn (all.ok henter)
  exact ⟨v, v', hs, hok, fun e he => sub e (List.mem_cons_of_mem _ (sub' e he))⟩

/-- What the steps of a plan reach has been visited when all of them succeed. -/
theorem Plan.Reaches.visitedIn {plan : Plan env.tree n} (h : plan.Reaches f)
    (tour : Tour env n w₀ plan.steps w w') :
    VisitedIn env (stepsEntries env plan.steps w) f := by
  cases h with
  | child target => exact tour.visitedIn target
  | column all column =>
    obtain ⟨display, hdisplay, hitem⟩ := List.mem_flatMap.1 column
    obtain ⟨item, hchild, heq⟩ := List.mem_filterMap.1 hitem
    obtain ⟨hdisplay, hkind⟩ := List.mem_filter.1 hdisplay
    have list := tour.visitedIn (all display hdisplay)
    have shown := list.child (.inl (by simpa using hkind)) hchild
    split at heq
    · exact Option.some.inj heq ▸ shown
    · rename_i hform
      exact shown.child (.inr hform) (List.mem_of_find?_eq_some heq)
    · cases heq

/-- A field that has been visited is known, if the same was written on it in case that it is asked
in vain. -/
theorem Agreed.known (h : Agreed env o o' es) (sub : o.SymbolsIn o') (asked : ReadBack env f)
    (visited : VisitedIn env es f) (settled : Settles env es w) : Known o o' w f := by
  obtain ⟨v, plan, v', he, henter⟩ := visited.entered
  have same : (w.notes.get f).symbol = (v'.notes.get f).symbol :=
    congrArg (·.1) ((settled f v plan v' he henter).2 f (.of_field asked.kind))
  cases found : (v'.notes.get f).symbol with
  | some s => exact .of_some sub (same.trans found)
  | none => exact .inr (h f ⟨asked, v, plan, v', he, henter, found⟩)

/-! ### Visits -/

section Visit

variable (sub : o.SymbolsIn o')
include sub

theorem Amid.repeats_ready (h : Amid env n w₀ leave (step :: rest) done w)
    (quiet : ∀ a ∈ step.before, a.fields = []) : Repeats o o' (step.ready env) w := by
  refine (blind_prepare env step).repeats.bind fun _ v hprepare => ?_
  have told : Local env n w v := ((ends_prepare h.plain).ok hprepare).isLocal
  have since := h.since.advance told
  cases h.course with
  | step before =>
    refine before.repeats sub told.ext since.sound ?_ since.scope_lt since.resolved_done ?_
    · exact ((ends_prepare h.plain).ok hprepare).frame
    · intro a ha f hf
      simp [quiet a ha] at hf

theorem Poised.repeats_after (h : Poised env n w₀ leave step rest done w)
    (honest : ∀ a ∈ step.after, ∀ f ∈ a.fields, f = step.child.val ∧ ReadBack env f)
    (hok : visit env step.child.val w = .ok () w')
    (agreed : Agreed env o o' (entries env step.child.val w)) :
    Repeats o o' (performAll env step.after) w' := by
  have hs := h.since.sound
  obtain ⟨visited, -⟩ := (ends_visit env step.child.val hs).ok hok
  obtain ⟨done', F, hdone, acts, -⟩ := h.next
  have since := h.since.visit h.once visited hdone
  refine acts.repeats sub visited.ext since.sound visited.frame since.scope_lt
    since.resolved_done fun a ha f hf => ?_
  obtain ⟨rfl, asked⟩ := honest a ha f hf
  refine ⟨fun hn => ?_, agreed.known sub asked ⟨w, w', hs, hok, fun _ => id⟩
    (visit_settles env _ hs hok)⟩
  have hlt := (lt_of_mem_children step.child.property).1
  rw [hn] at hlt
  exact Nat.lt_irrefl _ hlt

/-- One step, given that the visit of its child comes to the same. -/
theorem Amid.repeats_run (h : Amid env n w₀ leave (step :: rest) done w)
    (quiet : ∀ a ∈ step.before, a.fields = [])
    (honest : ∀ a ∈ step.after, ∀ f ∈ a.fields, f = step.child.val ∧ ReadBack env f)
    (child : ∀ v, Sound v → Agreed env o o' (entries env step.child.val v) →
      Repeats o o' (visit env step.child.val) v)
    (agreed : Agreed env o o' (step.entries env w)) :
    Repeats o o' (step.run env (visit env step.child.val)) w := by
  rw [Step.run_eq]
  refine (h.repeats_ready sub quiet).bind fun _ w₁ hready => ?_
  obtain ⟨-, poised⟩ := h.ends_ready.ok hready
  rw [Step.entries_of_ok hready] at agreed
  -- a child that fails is the same failure on both trees, and what it leads to asks nothing
  have undo : ∀ f, Blind (step.undo env f) := fun f =>
    (poised.opened.confined_undo (P := fun _ => True) f).blind
  refine Repeats.bind (.tryCatch (child w₁ poised.since.sound agreed) fun f v _ =>
    (undo f).repeats) fun _ w₂ hcatch => ?_
  exact poised.repeats_after sub honest (poised.visit_ok hcatch) agreed

/-- The steps of a plan, given that the visits of the children come to the same. -/
theorem Amid.repeats_loop (h : Amid env n w₀ leave steps done w)
    (quiet : ∀ s ∈ steps, ∀ a ∈ s.before, a.fields = [])
    (honest : ∀ s ∈ steps, ∀ a ∈ s.after, ∀ f ∈ a.fields, f = s.child.val ∧ ReadBack env f)
    (child : ∀ c ∈ env.tree.children n, ∀ v, Sound v → Agreed env o o' (entries env c v) →
      Repeats o o' (visit env c) v)
    (agreed : Agreed env o o' (stepsEntries env steps w)) :
    Repeats o o' (steps.forM fun step => step.run env (visit env step.child.val) : WalkM Unit)
      w := by
  induction steps generalizing w done with
  | nil => exact Blind.repeats (.pure _)
  | cons step rest ih =>
    have first : ∀ e ∈ step.entries env w, e ∈ stepsEntries env (step :: rest) w :=
      fun e he => List.mem_append_left _ he
    refine (h.repeats_run sub (quiet step List.mem_cons_self) (honest step List.mem_cons_self)
      (child _ step.child.property) (agreed.mono first)).bind fun _ v hrun => ?_
    obtain ⟨⟨done', amid⟩, -⟩ := (h.ends_run fun _ => ends_visit env _).ok hrun
    rw [stepsEntries_of_ok hrun] at agreed
    exact ih amid (fun s hs => quiet s (List.mem_cons_of_mem _ hs))
      (fun s hs => honest s (List.mem_cons_of_mem _ hs))
      (agreed.mono fun e he => List.mem_append_right _ he)

theorem Amid.repeats_leave (h : Amid env n w₀ leave [] done w)
    (known : ∀ a ∈ leave, ∀ f ∈ a.fields, f ≠ n ∧ Known o o' w f) :
    Repeats o o' (performAll env leave) w := by
  obtain ⟨since, course⟩ := h
  cases course with
  | leave acts =>
    exact acts.repeats sub (.refl _) since.sound rfl since.scope_lt since.resolved_done known

end Visit

/-- No plan asks its own node what it stands for. -/
theorem ReadBack.ne (h : ReadBack env f) {plan : Plan env.tree n} (hs : Sound w)
    (henter : enter env n w = .ok plan w') (asks : ∃ a ∈ plan.leave, f ∈ a.fields) : f ≠ n := by
  rintro rfl
  obtain ⟨a, ha, -⟩ := asks
  rw [((plainly_enter hs henter).field h.kind).1] at ha
  simp at ha

/-- A visit comes to the same on two trees if the same was written on the fields that it asks in
vain. -/
theorem repeats_visit (env : Env) (n : NodeId) {w : Walk} (sub : o.SymbolsIn o') (hs : Sound w)
    (agreed : Agreed env o o' (entries env n w)) : Repeats o o' (visit env n) w := by
  rw [visit]
  refine (blind_enter env n).repeats.bind fun plan v henter => ?_
  have amid := ((ends_enter env n hs).ok henter).amid hs
  have honest := (enter_honest env n).ok henter
  rw [entries_of_ok henter] at agreed
  have below : Agreed env o o' (stepsEntries env plan.steps v) :=
    agreed.mono fun e he => List.mem_cons_of_mem _ he
  refine (amid.repeats_loop sub honest.before honest.after (fun c hc v hs agreed =>
    repeats_visit env c sub hs agreed) below).bind fun _ w' hloop => ?_
  obtain ⟨⟨done', last⟩, tour⟩ := amid.loop (plainly_enter hs henter) hloop
  -- what the fields were found to stand for when they were entered is still written on them
  refine last.repeats_leave sub fun a ha f hf => ?_
  obtain ⟨asked, reaches⟩ := honest.leave a ha f hf
  refine ⟨asked.ne hs henter ⟨a, ha, hf⟩, below.known sub asked (reaches.visitedIn tour) ?_⟩
  exact tour.settles fun c _ _ _ hs hok => visit_settles env c hs hok
termination_by env.tree.size - n.val
decreasing_by
  have := lt_of_mem_children hc
  omega

/-! ### Walks over a unit -/

theorem overwrites_start : Annotation.Overwrites fun a =>
    { a with scope := some ⟨0⟩, block := some ⟨0⟩, symbol := some ⟨0⟩ } :=
  fun _ _ _ _ h => { h with scope := .same _, block := .same _, symbol := .same _ }

/-- Walks over a unit come to the same on two trees if the same was written on the fields that are
asked in vain. -/
theorem concur_visitUnit (sub : o.SymbolsIn o') (agreed : Agreed env o o' (unitEntries env o)) :
    Concur o o' (visitUnit env (start env o)) (visitUnit env (start env o')) := by
  have plain : ∀ s ∈ unitSteps env, s.Silent := silent_plainSteps
  have loop := (amid_start env o).repeats_loop sub (fun s hs => (plain s hs).before)
    (fun s hs a ha f hf => by simp [(plain s hs).after a ha] at hf)
    (fun c _ v hs agreed => repeats_visit env c sub hs agreed) agreed
  have repeats : Repeats o o' (visitUnit env) (start env o) := by
    rw [visitUnit_eq]
    exact loop.bind fun _ v _ => Blind.repeats (.pure _)
  exact repeats _ (Annotations.Kept.start.update root overwrites_start)

/-- A field that was asked in vain has no symbol written on it when the walk is over. -/
theorem agreed_of_visitUnit {size : Nat}
    (hok : visitUnit env (start env (.blank size)) = .ok () w) :
    Agreed env (.blank size) w.notes (unitEntries env (.blank size)) := by
  rintro f ⟨asked, v, plan, v', he, henter, hnone⟩
  have settled := (visitUnit_settles hok f v plan v' he henter).2 f (.of_field asked.kind)
  rw [Annotations.get_blank]
  exact (congrArg (·.1) settled).trans hnone

end Walk

namespace CompilationUnit

open Walk

variable (catalog : Catalog) (types : TypeRegistry) (options : Options)

/-- The analysis of a tree on which only some of the symbols are written comes to the same. -/
theorem analyze_fst_of_symbolsIn (tree : ParseTree) {o o' : Annotations} (sub : o.SymbolsIn o')
    (agreed : let env : Env := { tree, catalog, types, options }
      Agreed env o o' (unitEntries env o)) :
    (analyze ⟨tree, o'⟩ catalog types options).1 = (analyze ⟨tree, o⟩ catalog types options).1 := by
  have concur := concur_visitUnit sub agreed
  rw [analyze_eq, analyze_eq]
  dsimp only
  revert concur
  generalize visitUnit _ (start _ o) = r
  generalize visitUnit _ (start _ o') = r'
  rintro (kept | kept) <;> rfl

/-- Analyses of two trees that differ in what was written on them before come to the same, whether
that is an index or a fault, if the trees had the same symbols on the fields that are asked what
they stand for and are found to stand for nothing. Which fields these are is seen on a tree that has
the symbols which both trees have. -/
theorem analyze_fst_of_agreed (tree : ParseTree) (notes notes' : Annotations)
    (agreed : let env : Env := { tree, catalog, types, options }
      ∀ f, AskedInVain env (unitEntries env (notes.alike notes')) f →
        (notes'.get f).symbol = (notes.get f).symbol) :
    (analyze ⟨tree, notes⟩ catalog types options).1 =
      (analyze ⟨tree, notes'⟩ catalog types options).1 := by
  have symbol := notes.symbol_alike notes'
  have both : ∀ m s, ((notes.alike notes').get m).symbol = some s →
      (notes.get m).symbol = some s ∧ (notes'.get m).symbol = some s := by
    intro m s hs
    rw [symbol] at hs
    split at hs
    · rename_i same
      exact ⟨hs, same.trans hs⟩
    · cases hs
  have first := analyze_fst_of_symbolsIn catalog types options tree
    (fun m s hs => (both m s hs).1) fun f hf => by rw [symbol, if_pos (agreed f hf)]
  have second := analyze_fst_of_symbolsIn catalog types options tree
    (fun m s hs => (both m s hs).2) fun f hf => by rw [symbol, if_pos (agreed f hf), agreed f hf]
  exact first.trans second.symm

/-- A variable that is to be like a field of a database. -/
def fieldLike : ParseTree := .ofRows [
  (0, .defineVariable, ""), (1, .identifier, "v"), (1, .likeClause, ""), (3, .field, "t.f")]

/-- A catalog in which the field has some type. -/
def fieldLikeCatalog (type : DataType) : Catalog :=
  ⟨[⟨"db", [{ name := "t", fields := [⟨"f", type, 0⟩] }]⟩]⟩

/-- What is written on the sample when the field has been found. -/
def fieldLikeNotes : Annotations :=
  ((ofTree fieldLike).analyze (fieldLikeCatalog .character) {} {}).2.notes

/-- In the sample, the field is found again in another catalog, so that it does not matter what was
found before. -/
theorem analyze_fst_of_agreed_sample :
    (fieldLikeNotes.get ⟨4⟩).symbol = some ⟨3⟩ ∧
      (analyze ⟨fieldLike, fieldLikeNotes⟩ (fieldLikeCatalog .date) {} {}).1 =
        (analyze ⟨fieldLike, .blank fieldLike.size⟩ (fieldLikeCatalog .date) {} {}).1 ∧
      (analyze ⟨fieldLike, .blank fieldLike.size⟩ (fieldLikeCatalog .date) {} {}).1.isOk := by
  refine ⟨by decide +kernel, ?_, by decide +kernel⟩
  refine analyze_fst_of_agreed (fieldLikeCatalog .date) {} {} fieldLike _ _ ?_
  rintro env f ⟨asked, v, plan, v', he, henter, hnone⟩
  have found : (unitEntries env (fieldLikeNotes.alike (.blank fieldLike.size))).all fun e =>
      match enter env e.1 e.2 with
      | .ok _ v => env.tree.kind e.1 ≠ .field || (v.notes.get e.1).symbol.isSome
      | .error _ _ => true := by
    decide +kernel
  have here := List.all_eq_true.1 found _ he
  simp [henter, hnone, asked.kind] at here

/-- If it is not found the next time, what was found before is mistaken for an answer. -/
example : (analyze ⟨fieldLike, fieldLikeNotes⟩ {} {} {}).1 ≠
    (analyze ⟨fieldLike, .blank fieldLike.size⟩ {} {} {}).1 := by
  decide +kernel

/-- An analysis that succeeds on a clean tree finds nothing new when it is made once more: it comes
to the same index and leaves what is written on the tree exactly as it is. -/
theorem analyze_again {tree : ParseTree} {index : UnitIndex} {u : CompilationUnit}
    (h : (ofTree tree).analyze catalog types options = (.ok index, u)) :
    u.analyze catalog types options = (.ok index, u) := by
  obtain ⟨w, hok, rfl, rfl⟩ := analyze_ok catalog types options h
  dsimp only [ofTree] at hok ⊢
  have concur := concur_visitUnit (Annotations.symbolsIn_blank _ _) (agreed_of_visitUnit hok)
  rw [hok] at concur
  generalize hagain : visitUnit _ (start _ w.notes) = r at concur
  cases concur with
  | ok kept =>
    -- what was written on the tree is what has been written now
    cases kept.eq
    rw [analyze_eq]
    simp only [hagain]

/-- The sample, when the field has been found: it is found again. -/
theorem analyze_again_sample :
    ∃ index u, (ofTree fieldLike).analyze (fieldLikeCatalog .character) {} {} = (.ok index, u) ∧
      (u.notes.get ⟨4⟩).symbol = some ⟨3⟩ ∧
      u.analyze (fieldLikeCatalog .character) {} {} = (.ok index, u) := by
  obtain ⟨index, hok⟩ :=
    exists_analyze_ok (u := ofTree fieldLike) (fieldLikeCatalog .character) {} {}
      (by decide +kernel)
  have found : (fieldLikeNotes.get ⟨4⟩).symbol = some ⟨3⟩ := by decide +kernel
  have again := analyze_again (fieldLikeCatalog .character) {} {} hok
  exact ⟨index, _, hok, found, again⟩

end CompilationUnit

end AblResolve
