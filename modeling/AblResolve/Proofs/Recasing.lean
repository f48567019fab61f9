import AblResolve.Proofs.ParallelVisit
import Mathlib.Data.List.Forall2
/-!
The case of letters. Analyses of two trees that spell their words with letters of other cases run in
parallel: they end in the same way, and if they succeed, their results differ in how names are
spelled and in nothing else.
-/
namespace AblResolve

open Likeness

/-! ### Spelling -/

/-- The node with its word in lower case. -/
def Node.folded (n : Node) : Node :=
  { n with token := { n.token with text := Text.fold n.token.text } }

/-- The trees are the same but for the case of letters in the words at their nodes. -/
structure ParseTree.Recased (t t' : ParseTree) : Prop where
  nodes : t.nodes.map Node.folded = t'.nodes.map Node.folded
  fileNames : t.fileNames = t'.fileNames

/-- The index with all names and messages in lower case. -/
def UnitIndex.folded (x : UnitIndex) : UnitIndex where
  scopes := x.scopes.map anyCase.scope
  blocks := x.blocks
  bufferScopes := x.bufferScopes
  symbols := x.symbols.map anyCase.symbol
  tables := x.tables.map anyCase.table
  fields := x.fields.map anyCase.field
  indexes := x.indexes.map anyCase.tableIndex
  schemaTables := x.schemaTables
  unresolved := x.unresolved.map anyCase.unresolved
  defaulted := x.defaulted
  diagnostics := ⟨x.diagnostics.all.map anyCase.diagnostic⟩

theorem UnitIndex.Alike.folded {x y : UnitIndex} (h : x.Alike anyCase y) : x.folded = y.folded := by
  obtain ⟨scopes, blocks, bufferScopes, symbols, tables, fields, indexes, schemaTables, unresolved,
    defaulted, diagnostics, -⟩ := h
  have defaulted : x.defaulted = y.defaulted := defaulted
  simp only [UnitIndex.folded, scopes, blocks, bufferScopes, symbols, tables, fields, indexes,
    schemaTables, unresolved, defaulted, diagnostics]

/-- Analyses end in the same way: with indexes that differ in the spelling of names, with a record
in the same place that names no table, or with the same fault. -/
inductive SameOutcome : Except Fault UnitIndex → Except Fault UnitIndex → Prop
  | ok {x y : UnitIndex} (index : x.folded = y.folded) : SameOutcome (.ok x) (.ok y)
  | unresolvedTable {name name' : String} (spelling : Text.fold name = Text.fold name')
      (file : String) (location : Location) :
      SameOutcome (.error (.unresolvedTable name file location))
        (.error (.unresolvedTable name' file location))
  | fault (f : Fault) : SameOutcome (.error f) (.error f)

namespace ParseTree.Recased

variable {t t' : ParseTree} (h : t.Recased t')
include h

/-- Nodes with the same number are there together, and alike. -/
theorem node (n : NodeId) : t.node? n = none ∧ t'.node? n = none ∨
    ∃ v v', t.node? n = some v ∧ t'.node? n = some v' ∧ v.folded = v'.folded :=
  Arena.get?_of_map_eq h.nodes n

theorem shape : t.SameShape t' := by
  have bare : ∀ t : ParseTree, (t.nodes.map Node.folded).map Node.bare = t.nodes.map Node.bare := by
    intro t
    simp [Arena.map, Function.comp_def, Node.bare, Node.folded]
  rw [SameShape, ← bare t, ← bare t', h.nodes]

/-- Tokens are the same but for their texts, which are so in lower case. -/
theorem token (n : NodeId) : { t.token n with text := Text.fold (t.text n) } =
    { t'.token n with text := Text.fold (t'.text n) } := by
  unfold ParseTree.text ParseTree.token
  rcases h.node n with ⟨hv, hv'⟩ | ⟨v, v', hv, hv', same⟩
  · rw [hv, hv']
  · rw [hv, hv']
    exact (congrArg Node.token same :)

theorem env (catalog : Catalog) (types : TypeRegistry) (options : Options) :
    Env.Alike anyCase { tree := t, catalog, types, options }
      { tree := t', catalog, types, options } where
  catalog := rfl
  types := rfl
  defaults same n := congrArg (options.noting n) same
  below _ _ _ := trivial
  children _ := by rw [h.shape.children]
  kind _ := by rw [h.shape.kind]
  text _ := (congrArg Token.text (h.token _) :)
  location _ := (congrArg Token.location (h.token _) :)
  fileName {n} _ := by
    have file : (t.token n).file = (t'.token n).file := (congrArg Token.file (h.token n) :)
    simp only [Walk.fileNameOf, ParseTree.fileName?, file, h.fileNames]
  definesInline _ := by rw [h.shape.definesInline]
  parentKind _ := by rw [h.shape.parent?, h.shape.kind]
  handleMode _ _ _ := by
    simp only [Walk.handleMode, Walk.argumentQualifier, h.shape.hasKeyword, h.shape.kind,
      h.shape.parent?]

theorem addChild {parent : NodeId} (hp : parent.val < t.size) (hp' : parent.val < t'.size)
    (kind : NodeKind) {word word' : String} (spelling : Text.fold word = Text.fold word')
    (definesInline : Bool) :
    (t.addChild parent hp kind (.made word) definesInline).Recased
      (t'.addChild parent hp' kind (.made word') definesInline) := by
  refine ⟨Arena.map_push_congr (Arena.map_update_congr h.nodes (fun v v' same => ?_) parent) ?_,
    h.fileNames⟩
  · rw [Arena.next_of_map_eq h.nodes]
    exact (congrArg (fun v => { v with children := v.children ++ [t'.nodes.next] }) same :)
  · simp only [Node.folded, Token.made, spelling]

end ParseTree.Recased

/-- Rows that differ in the case of letters give such trees. -/
theorem ParseTree.recased_ofRows {rows rows' : List (Nat × NodeKind × String)}
    (h : List.Forall₂ (fun r r' => r.1 = r'.1 ∧ r.2.1 = r'.2.1 ∧
      Text.fold r.2.2 = Text.fold r'.2.2) rows rows') :
    (ofRows rows).Recased (ofRows rows') := by
  refine List.rel_foldl (P := Recased) (fun t t' same r r' row => ?_) ⟨rfl, rfl⟩ h
  obtain ⟨parent, kind, spelling⟩ := row
  dsimp only
  rw [← parent, ← kind]
  by_cases hp : r.1 < t.size
  · rw [dif_pos hp, dif_pos (same.shape.size ▸ hp)]
    exact same.addChild _ _ _ spelling _
  · rw [dif_neg hp, dif_neg (same.shape.size ▸ hp)]
    exact same

/-! ### Faults -/

/-- Faults that are alike and name no table are the same. -/
theorem Likeness.fault_eq {L : Likeness} {f f' : Fault} (h : L.fault f = L.fault f')
    (table : f.isUnresolvedTable = false) (frozen : ∀ name, f ≠ .breach (.frozenTable name)) :
    f = f' := by
  cases f with
  | unresolvedTable => cases table
  | misplaced m =>
    cases f' with
    | misplaced m' => exact h
    | unresolvedTable | breach => cases h
  | breach b =>
    cases f' with
    | unresolvedTable | misplaced => cases h
    | breach b' =>
      have same : L.breach b = L.breach b' := Fault.breach.inj h
      cases b <;> first | exact absurd rfl (frozen _) | skip
      all_goals cases b' <;> first | exact h | cases same

namespace CompilationUnit

open Walk

variable (catalog : Catalog) (types : TypeRegistry) (options : Options)

/-- On a tree on which nothing is written, no table that is frozen is asked to take anything. -/
theorem visitUnit_not_frozen {env : Env} {size : Nat} {f : Fault} {w : Walk}
    (hw : visitUnit env (start env (.blank size)) = .error f w) (name : String) :
    f ≠ .breach (.frozenTable name) := by
  rintro rfl
  cases (ends_visitUnit env (.blank size)).error hw

/-- The walks over two trees that differ in the case of letters agree. -/
theorem visitUnit_recased {t t' : ParseTree} (h : t.Recased t') :
    let env : Env := { tree := t, catalog, types, options }
    let env' : Env := { tree := t', catalog, types, options }
    Agrees anyCase Eq (visitUnit env (start env (.blank t.size)))
      (visitUnit env' (start env' (.blank t'.size))) := by
  intro env env'
  have fileName : env.tree.fileName? 0 = env'.tree.fileName? 0 := by
    rw [ParseTree.fileName?, h.fileNames]
    rfl
  have visits : Parallel anyCase Eq ((t.children ParseTree.root).forM (visit env))
      ((t.children ParseTree.root).forM (visit env')) :=
    .visits (h.env catalog types options) fun _ _ => trivial
  have same : visitUnit env' = (t.children ParseTree.root).forM (visit env') := by
    rw [h.shape.children]
    rfl
  rw [same]
  exact visits _ _ (alike_start fileName rfl fun _ => by simp)

/-- An analysis does not depend on the case of letters. -/
theorem analyze_recased {t t' : ParseTree} (h : t.Recased t') :
    let r := (ofTree t).analyze catalog types options
    let r' := (ofTree t').analyze catalog types options
    SameOutcome r.1 r'.1 ∧ ∀ n, r.2.notes.get n = r'.2.notes.get n := by
  have agrees := visitUnit_recased catalog types options h
  have sound := @visitUnit_not_frozen { tree := t, catalog, types, options } t.size
  rw [analyze_eq, analyze_eq]
  dsimp only [ofTree] at agrees sound ⊢
  revert agrees sound
  generalize visitUnit _ (start _ (.blank t.size)) = r
  generalize visitUnit _ (start _ (.blank t'.size)) = r'
  rintro (⟨-, state⟩ | @⟨f, f', w, w', fault, state⟩ | uncounted | uncounted) sound
  · exact ⟨.ok state.index.folded, state.notes⟩
  -- only faults about tables tell a name, and a frozen table is never asked for more
  · cases hf : f.isUnresolvedTable with
    | false =>
      have same := Likeness.fault_eq fault hf (sound rfl)
      subst same
      simp only [hf]
      exact ⟨.fault f, state.notes⟩
    | true =>
      cases f with
      | misplaced | breach => cases hf
      | unresolvedTable name file location =>
        cases f' with
        | misplaced | breach => cases fault
        | unresolvedTable name' file' location' =>
          simp only [Likeness.fault, Fault.unresolvedTable.injEq] at fault
          obtain ⟨spelling, rfl, rfl⟩ := fault
          refine ⟨.unresolvedTable spelling file location, fun n => ?_⟩
          simp [Fault.isUnresolvedTable, clear, ofTree]
  · cases uncounted
  · cases uncounted

/-- A variable with its name in small letters, and a statement that displays it. -/
def smallLetters : ParseTree := .ofRows [
  (0, .defineVariable, ""), (1, .identifier, "sum"), (0, .displayStatement, ""), (3, .field, "sum")]

/-- The same in capitals. -/
def capitals : ParseTree := .ofRows [
  (0, .defineVariable, ""), (1, .identifier, "SUM"), (0, .displayStatement, ""), (3, .field, "SUM")]

theorem recased_capitals : smallLetters.Recased capitals := by
  have small : Text.fold "sum" = "sum" := by decide +kernel
  have capital : Text.fold "SUM" = "sum" := by decide +kernel
  have spelling := small.trans capital.symm
  exact ParseTree.recased_ofRows (.cons ⟨rfl, rfl, rfl⟩ (.cons ⟨rfl, rfl, spelling⟩
    (.cons ⟨rfl, rfl, rfl⟩ (.cons ⟨rfl, rfl, spelling⟩ .nil))))

/-- Both are resolved, and alike; the variable has another spelling. -/
theorem analyze_recased_capitals :
    let r := (ofTree smallLetters).analyze {} {} {}
    let r' := (ofTree capitals).analyze {} {} {}
    smallLetters.Recased capitals ∧ SameOutcome r.1 r'.1 ∧
      (∀ n, r.2.notes.get n = r'.2.notes.get n) ∧ (r'.2.notes.get ⟨4⟩).symbol = some ⟨1⟩ ∧
      r.1.toOption.any (fun x => (x.symbols.get? ⟨1⟩).any (·.name = "sum")) = true ∧
      r'.1.toOption.any (fun x => (x.symbols.get? ⟨1⟩).any (·.name = "SUM")) = true := by
  obtain ⟨outcome, notes⟩ := analyze_recased {} {} {} recased_capitals
  exact ⟨recased_capitals, outcome, notes, by decide +kernel, by decide +kernel, by decide +kernel⟩

end CompilationUnit

end AblResolve
