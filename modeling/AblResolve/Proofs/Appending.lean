import AblResolve.Proofs.Finished
import AblResolve.Proofs.ParallelVisit
/-!
Programs that go on. When a tree has more below its root than another, its analysis is that of the
other tree, gone on with: it fails where the other one fails, and all that the other one finds out
lasts.
-/
namespace AblResolve

open Likeness ParseTree

/-- The tree has all nodes of `P`, and besides only nodes with larger numbers, which hang below the
root after the children that it has in `P`. -/
structure ParseTree.Appended (P t : ParseTree) : Prop where
  fileNames : t.fileNames = P.fileNames
  inner : ∀ n : NodeId, n ≠ root → n.val < P.size → t.node? n = P.node? n
  root : ∃ node added, P.node? root = some node ∧
    t.node? root = some { node with children := node.children ++ added } ∧
    ∀ c ∈ added, P.size ≤ c.val

/-- The nodes of a tree below its root. -/
def ParseTree.IsInner (P : ParseTree) (n : NodeId) : Prop := n ≠ root ∧ n.val < P.size

namespace ParseTree.Appended

variable {P t : ParseTree} (h : P.Appended t)
include h

/-- The root has the children that it has in `P`, and further ones. -/
theorem children_root : ∃ added, t.children ParseTree.root = P.children ParseTree.root ++ added ∧
    ∀ c ∈ added, P.size ≤ c.val := by
  obtain ⟨node, added, hP, ht, new⟩ := h.root
  refine ⟨added, ?_, new⟩
  unfold ParseTree.children
  rw [hP, ht]

omit h in
theorem isInner_of_mem_children {n c : NodeId} (hc : c ∈ P.children n) : P.IsInner c :=
  ⟨ne_root_of_mem_children hc, (lt_of_mem_children hc).2⟩

theorem kind {n : NodeId} (hn : n.val < P.size) : t.kind n = P.kind n := by
  unfold ParseTree.kind
  by_cases hroot : n = ParseTree.root
  · obtain ⟨node, added, hP, ht, -⟩ := h.root
    rw [hroot, hP, ht]
  · rw [h.inner n hroot hn]

theorem env (catalog : Catalog) (types : TypeRegistry) (options : Options) :
    Env.Alike (anyUse P.IsInner) { tree := P, catalog, types, options }
      { tree := t, catalog, types, options } where
  catalog := rfl
  types := rfl
  defaults same n := congrArg (options.noting n) same
  below _ _ hc := isInner_of_mem_children hc
  children hn := by simp only [ParseTree.children, h.inner _ hn.1 hn.2]
  kind hn := (h.kind hn.2).symm
  text hn := by simp only [ParseTree.text, ParseTree.token, h.inner _ hn.1 hn.2]
  location hn := by simp only [ParseTree.location, ParseTree.token, h.inner _ hn.1 hn.2]
  fileName hn := by
    simp only [Walk.fileNameOf, ParseTree.fileName?, ParseTree.token, h.inner _ hn.1 hn.2,
      h.fileNames]
  definesInline hn := by simp only [ParseTree.definesInline, h.inner _ hn.1 hn.2]
  parentKind {n} hn := by
    have parent : t.parent? n = P.parent? n := by
      simp only [ParseTree.parent?, h.inner _ hn.1 hn.2]
    dsimp only
    rw [parent]
    cases hp : P.parent? n with
    | none => rfl
    | some p =>
      have below := (lt_of_mem_children (mem_children_of_parent? hp)).1
      rw [Option.map_some, Option.map_some, h.kind (Nat.lt_trans below hn.2)]
  handleMode := by rintro ⟨⟩

/-! ### Trees that grow below the root -/

theorem size_le : P.size ≤ t.size := by
  refine Nat.le_of_not_lt fun hlt => ?_
  obtain ⟨node, hnode⟩ := Arena.exists_get? (a := P.nodes) (i := ⟨t.size⟩) hlt
  have hne : (⟨t.size⟩ : NodeId) ≠ ParseTree.root := fun heq =>
    absurd (congrArg Id.val heq) (Nat.ne_of_gt t.nonempty)
  exact Nat.lt_irrefl _ (Arena.lt_size_of_get? ((h.inner _ hne hlt).trans hnode))

omit h in
theorem refl (P : ParseTree) : P.Appended P := by
  obtain ⟨node, hnode⟩ := Arena.exists_get? (a := P.nodes) (i := ParseTree.root) P.nonempty
  exact ⟨rfl, fun _ _ _ => rfl, node, [], hnode, by rwa [List.append_nil], by simp⟩

/-- One more node, below the root or below a node that is itself new. -/
theorem addChild {parent : NodeId} (hp : parent.val < t.size)
    (new : parent = ParseTree.root ∨ P.size ≤ parent.val) (kind : NodeKind) (token : Token)
    (definesInline : Bool) : P.Appended (t.addChild parent hp kind token definesInline) := by
  have node? : ∀ n, (t.addChild parent hp kind token definesInline).node? n =
      if n = t.nodes.next then some { kind, token, parent := some parent, definesInline }
      else if parent = n then
        (t.node? n).map fun p => { p with children := p.children ++ [t.nodes.next] }
      else t.node? n := get?_addChildNode
  have size := h.size_le
  refine ⟨h.fileNames, fun n hroot hn => ?_, ?_⟩
  · have old : n ≠ t.nodes.next := by
      rintro rfl
      exact absurd hn (Nat.not_lt.2 size)
    have other : parent ≠ n := by
      rintro rfl
      rcases new with rfl | hle
      · exact hroot rfl
      · exact absurd hn (Nat.not_lt.2 hle)
    rw [node?, if_neg old, if_neg other, h.inner n hroot hn]
  · obtain ⟨node, added, hP, ht, fresh⟩ := h.root
    have old : ParseTree.root ≠ t.nodes.next := fun heq =>
      absurd (congrArg Id.val heq) (Nat.ne_of_lt t.nonempty)
    rw [node?, if_neg old, ht]
    split
    · refine ⟨node, added ++ [t.nodes.next], hP, by simp, fun c hc => ?_⟩
      rcases List.mem_append.1 hc with hc | hc
      · exact fresh c hc
      · rw [List.mem_singleton.1 hc]
        exact size
    · exact ⟨node, added, hP, rfl, fresh⟩

end ParseTree.Appended

/-- Rows below the root or below new nodes append such subtrees. -/
theorem ParseTree.appended_ofRows {rows more : List (Nat × NodeKind × String)}
    (new : ∀ r ∈ more, r.1 = 0 ∨ (ofRows rows).size ≤ r.1) :
    (ofRows rows).Appended (ofRows (rows ++ more)) := by
  rw [ofRows, ofRows, List.foldl_append]
  refine List.foldlRecOn (motive := (ofRows rows).Appended) more _ (.refl _) fun t h r hr => ?_
  dsimp only
  split
  · refine h.addChild _ ?_ _ _ _
    exact (new r hr).imp (fun hr => Id.ext hr) id
  · exact h

/-! ### Indexes that differ in the references counted -/

namespace Likeness

variable {nodes : NodeId → Prop}

theorem literal_anyUse : (anyUse nodes).Literal := fun _ => rfl

theorem anyUse_symbol (s : Symbol) : (anyUse nodes).symbol s = s.uncounted := by
  rw [symbol, literal_anyUse.text, literal_anyUse.kind]
  rfl

end Likeness

/-- Indexes that are alike but for how often symbols are referred to. -/
theorem UnitIndex.Alike.refers {nodes : NodeId → Prop} {x y : UnitIndex}
    (h : x.Alike (anyUse nodes) y) : x.Refers y := by
  have literal : (anyUse nodes).Literal := literal_anyUse
  have noted := h.unresolved
  have found := h.diagnostics
  rw [literal.unresolved, literal.unresolved] at noted
  rw [literal.diagnostics, literal.diagnostics] at found
  refine ⟨fun i => ?_, ?_, noted ▸ List.prefix_rfl, found ▸ List.prefix_rfl⟩
  · rcases Arena.get?_of_map_eq h.symbols i with ⟨hx, hy⟩ | ⟨s, s', hx, hy, same⟩
    · rw [hx, hy]
    · rw [anyUse_symbol, anyUse_symbol] at same
      rw [hx, hy, Option.map_some, Option.map_some, same]
  · have scopes := Arena.eq_of_map_eq h.scopes literal.scope
    have tables := Arena.eq_of_map_eq h.tables literal.table
    have fields := Arena.eq_of_map_eq h.fields literal.field
    have indexes := Arena.eq_of_map_eq h.indexes literal.tableIndex
    have defaulted : x.defaulted = y.defaulted := h.defaulted
    rw [← scopes, ← tables, ← fields, ← indexes, h.blocks, h.bufferScopes, h.schemaTables,
      defaulted]

/-! ### Going on -/

namespace Walk

variable {env : Env} {w w' : Walk}

/-- What has been done when nodes have been visited one after the other. -/
structure Passed (env : Env) (cs : List NodeId) (w w' : Walk) : Prop where
  sound : Sound w'
  told : NoneTold w'
  frame : w'.frame = w.frame
  ext : w.index.Extends w'.index
  strides : Strides w w'
  apart : ∀ m, (∀ c ∈ cs, ¬ env.tree.Within c m) → w'.notes.get m = w.notes.get m

theorem passed_of_ok {cs : List NodeId} (hs : Sound w) (told : NoneTold w)
    (hok : cs.forM (visit env) w = .ok () w') : Passed env cs w w' := by
  induction cs generalizing w with
  | nil =>
    cases hok
    exact ⟨hs, told, rfl, .refl _, .refl, fun _ _ => rfl⟩
  | cons c cs ih =>
    obtain ⟨_, v, hvisit, hrest⟩ := bind_ok.1 hok
    have only : OnlyTold env c w := fun m _ => told m
    have visited := ((ends_visit env c hs).ok hvisit).1
    obtain ⟨rs, trail, -⟩ := visit_trail env c hs only hvisit
    have rest := ih visited.sound (visit_noneTold env c hs only hvisit) hrest
    exact {
      sound := rest.sound
      told := rest.told
      frame := rest.frame.trans visited.frame
      ext := visited.ext.trans rest.ext
      strides := (trail.strides hs).trans rest.strides
      apart := fun m hm => (rest.apart m fun c hc => hm c (List.mem_cons_of_mem _ hc)).trans
        (visited.apart m (hm c List.mem_cons_self)) }

/-- On a tree on which nothing is written, no symbol is missing when it is referred to. -/
theorem visitUnit_not_dangling {size : Nat} (e : Entity) (i n : Nat) :
    visitUnit env (start env (.blank size)) ≠ .error (.breach (.dangling e i n)) w := by
  intro hw
  cases (ends_visitUnit env (.blank size)).error hw with
  | dangling stale => exact stale (inRange_start env size)

/-- What a walk has found out lasts when further children of the root are visited. -/
theorem Passed.lasts {cs : List NodeId} {x : UnitIndex} (h : Passed env cs w w') (hs : Sound w)
    (ok : w.TablesOk) (closed : w.openDefinitions = []) (refers : x.Refers w.index)
    (coherent : x.Coherent) (tables : x.TablesOk [] none) : x.Lasts w'.index :=
  (refers.keepsFinished.trans (h.strides.keepsFinished hs ok) (by simp [closed])).lasts
    (refers.extends.trans h.ext) coherent tables

/-- So does what it has written on nodes that lie before those children. -/
theorem Passed.notes_of_lt {cs : List NodeId} {size : Nat} (h : Passed env cs w w')
    (new : ∀ c ∈ cs, size ≤ c.val) {n : NodeId} (hn : n.val < size) :
    w'.notes.get n = w.notes.get n :=
  h.apart n fun c hc within => absurd (within.le.trans_lt hn) (Nat.not_lt.2 (new c hc))

/-- A walk over `env` has ended like one over children of the root of `env'`; what it has found out
lasts when the walk over `env'` goes on. -/
theorem lasts_of_visits {env' : Env} {nodes : NodeId → Prop} {cs added : List NodeId}
    {size size' : Nat} {v : Walk} (hP : visitUnit env (start env (.blank size)) = .ok () w)
    (hQ : cs.forM (visit env') (start env' (.blank size')) = .ok () v)
    (alike : w.Alike (anyUse nodes) v) (rest : added.forM (visit env') v = .ok () w')
    (new : ∀ c ∈ added, size ≤ c.val) :
    w.index.Lasts w'.index ∧ ∀ n, n.val < size → w'.notes.get n = w.notes.get n := by
  have started := sound_start env' (.blank size')
  have passed := passed_of_ok started (fun _ => rfl) hQ
  have later := passed_of_ok passed.sound passed.told rest
  have closed : v.openDefinitions = [] :=
    congrArg Frame.definitions (passed.frame.trans (frame_start env' _))
  have tables := passed.strides.tables started (tables_start env' _)
  have visited := ((ends_visitUnit env _).ok hP).1
  refine ⟨later.lasts passed.sound tables closed alike.index.refers visited.sound.coherent
    (tables_visitUnit hP), fun n hn => ?_⟩
  exact (later.notes_of_lt new hn).trans (alike.notes n).symm

end Walk

namespace CompilationUnit

open Walk

variable (catalog : Catalog) (types : TypeRegistry) (options : Options)

theorem visitUnit_appended {P t : ParseTree} (h : P.Appended t) {added : List NodeId}
    (children : t.children root = P.children root ++ added) :
    let env : Env := { tree := P, catalog, types, options }
    let env' : Env := { tree := t, catalog, types, options }
    visitUnit env' = (do (P.children root).forM (visit env'); added.forM (visit env')) ∧
    Agrees (anyUse P.IsInner) Eq (visitUnit env (start env (.blank P.size)))
      ((P.children root).forM (visit env') (start env' (.blank t.size))) := by
  intro env env'
  have fileName : env.tree.fileName? 0 = env'.tree.fileName? 0 := by
    rw [ParseTree.fileName?, ParseTree.fileName?, h.fileNames]
  refine ⟨?_, ?_⟩
  · rw [visitUnit, children]
    exact List.forM_append
  · exact Parallel.visits (h.env catalog types options)
      (fun _ hc => ParseTree.Appended.isInner_of_mem_children hc) _ _
      (alike_start fileName rfl fun _ => by simp)

/-- An analysis does not depend on what comes after the part of the program that it has read. -/
theorem analyze_appended {P t : ParseTree} (h : P.Appended t) :
    let r := (ofTree P).analyze catalog types options
    let r' := (ofTree t).analyze catalog types options
    (∀ y, r'.1 = .ok y → ∃ x, r.1 = .ok x ∧ x.Lasts y ∧
      ∀ n, n.val < P.size → r'.2.notes.get n = r.2.notes.get n) ∧
    ∀ fault, r.1 = .error fault → r'.1 = .error fault := by
  obtain ⟨added, children, new⟩ := h.children_root
  obtain ⟨split, agrees⟩ := visitUnit_appended catalog types options h children
  rw [analyze_eq, analyze_eq]
  dsimp only [ofTree] at split agrees ⊢
  generalize henv : ({ tree := P, catalog, types, options } : Env) = env at agrees ⊢
  generalize henv' : ({ tree := t, catalog, types, options } : Env) = env' at split agrees ⊢
  have whole : visitUnit env' (start env' (.blank t.size)) =
      EStateM.bind ((P.children root).forM (visit env')) (fun _ => added.forM (visit env'))
        (start env' (.blank t.size)) := by
    rw [split]
    rfl
  rw [EStateM.bind] at whole
  generalize hP : visitUnit env (start env (.blank P.size)) = r at agrees ⊢
  generalize hQ : (P.children root).forM (visit env') (start env' (.blank t.size)) = q
    at agrees whole
  -- the walk over `t` has come to the same point when it has visited the children it has in `P`
  cases agrees with
  | ok value state =>
    rename_i w v
    refine ⟨fun y hy => ?_, by rintro _ ⟨⟩⟩
    dsimp only at whole
    rw [whole] at hy ⊢
    cases hrest : added.forM (visit env') v with
    | error f w' =>
      rw [hrest] at hy
      cases hy
    | ok u w' =>
      rw [hrest] at hy
      cases hy
      obtain ⟨lasts, notes⟩ := lasts_of_visits hP hQ state hrest new
      exact ⟨w.index, rfl, lasts, notes⟩
  | error fault state =>
    rw [literal_anyUse.fault, literal_anyUse.fault] at fault
    subst fault
    dsimp only at whole
    rw [whole]
    exact ⟨by rintro _ ⟨⟩, fun _ => id⟩
  | lostLeft => exact absurd hP (visitUnit_not_dangling _ _ _)
  | lostRight => exact absurd whole (visitUnit_not_dangling _ _ _)

/-- A variable, and a statement that displays it. -/
def firstRows : List (Nat × NodeKind × String) := [
  (0, .defineVariable, ""), (1, .identifier, "x"), (1, .asClause, ""), (3, .datatype .integer, ""),
  (0, .displayStatement, ""), (5, .field, "x")]

/-- Another variable of the same name, and a statement that displays that one. -/
def laterRows : List (Nat × NodeKind × String) := [
  (0, .defineVariable, ""), (7, .identifier, "x"), (7, .asClause, ""),
  (9, .datatype .character, ""), (0, .displayStatement, ""), (11, .field, "x")]

/-- The first statement goes on to stand for the first variable. -/
theorem analyze_appended_shadowing :
    (ParseTree.ofRows firstRows).Appended (.ofRows (firstRows ++ laterRows)) ∧
    ∃ y u', (ofTree (.ofRows (firstRows ++ laterRows))).analyze {} {} {} = (.ok y, u') ∧
      ∃ x u, (ofTree (.ofRows firstRows)).analyze {} {} {} = (.ok x, u) ∧ x.Lasts y ∧
        (u.notes.get ⟨6⟩).symbol = some ⟨1⟩ ∧ (u'.notes.get ⟨6⟩).symbol = some ⟨1⟩ ∧
        (u'.notes.get ⟨12⟩).symbol = some ⟨2⟩ := by
  have appended : (ParseTree.ofRows firstRows).Appended (.ofRows (firstRows ++ laterRows)) :=
    ParseTree.appended_ofRows (by decide +kernel)
  obtain ⟨y, hy⟩ := exists_analyze_ok (u := ofTree (.ofRows (firstRows ++ laterRows))) {} {} {}
    (by decide +kernel)
  obtain ⟨x, hx, lasts, notes⟩ := (analyze_appended {} {} {} appended).1 y (by rw [hy])
  have first : (((ofTree (.ofRows firstRows)).analyze {} {} {}).2.notes.get ⟨6⟩).symbol =
      some ⟨1⟩ := by decide +kernel
  refine ⟨appended, y, _, hy, x, _, Prod.ext hx rfl, lasts, first, ?_, by decide +kernel⟩
  rw [notes ⟨6⟩ (by decide +kernel)]
  exact first

end CompilationUnit

end AblResolve
