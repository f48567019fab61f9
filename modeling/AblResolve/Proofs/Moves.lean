import AblResolve.Proofs.Change
import AblResolve.Walk.State
import Mathlib.Logic.Relation
/-!
What a walk can do to its state while it is at one node. A move leaves what is open as it is; a
turn opens or closes something. `Sound` is what every state of a walk satisfies, whatever the
tree: moves and turns keep it, since each is guarded by what it needs.
-/
namespace AblResolve

/-- Nodes of these kinds have a meaning through references alone. -/
@[simp]
def NodeKind.isName : NodeKind → Bool
  | .record | .widgetName | .identifier => true
  | _ => false

/-- The clauses that apply to the innermost open definition. -/
def NodeKind.isTypeClause : NodeKind → Bool
  | .asClause | .likeClause | .extentClause => true
  | _ => false

/-- The nodes that work on the indexes of a table being defined and on what is left for its end. -/
def NodeKind.shapesTable : NodeKind → Bool
  | .defineTempTable | .defineWorkTable | .tableLike | .tableUseIndex | .tableIndex => true
  | _ => false

theorem NodeKind.ne_record {k : NodeKind} (h : k.isName = false) : k ≠ .record := by
  rintro rfl
  cases h

namespace Walk

open Relation UnitIndex

/-! ### What is open -/

/-- What is open at one moment of a walk. -/
structure Frame where
  scopes : List ScopeId
  blocks : List BlockId
  definitions : List SymbolId
  event : Option SymbolId
  /-- The table being defined, with its default buffer. -/
  table : Option (TableId × SymbolId)
deriving DecidableEq

/-- The current scope. -/
def Frame.scope (F : Frame) : ScopeId := F.scopes.headD rootScope

/-- The current block. -/
def Frame.block (F : Frame) : BlockId := F.blocks.headD ⟨0⟩

def frame (w : Walk) : Frame where
  scopes := w.scopeStack
  blocks := w.blockStack
  definitions := w.openDefinitions
  event := w.openEvent
  table := w.tableDefinition.map fun d => (d.table, d.buffer)

def scope (w : Walk) : ScopeId := w.frame.scope

def block (w : Walk) : BlockId := w.frame.block

/-- What is open is there: the current block belongs to the current scope, and a table being
defined has its buffer and its node. -/
structure Standing (x : UnitIndex) (F : Frame) : Prop where
  scopes : F.scopes ≠ []
  blocks : F.blocks ≠ []
  current : ∃ block, x.blocks.get? F.block = some block ∧ block.scope = F.scope
  definitions : ∀ d ∈ F.definitions, d.val < x.symbols.size
  event : ∀ e, F.event = some e → x.IsEvent e
  table : ∀ t b, F.table = some (t, b) → x.bufferTable? b = some t ∧ x.HasNode t

theorem Standing.extends {x y : UnitIndex} {F : Frame} (ext : x.Extends y) (h : Standing x F) :
    Standing y F := by
  refine ⟨h.scopes, h.blocks, ?_, fun d hd => ext.lt_symbols (h.definitions d hd),
    fun e he => (h.event e he).extends ext, fun t b htb => ?_⟩
  · obtain ⟨block, hb, hscope⟩ := h.current
    obtain ⟨block', hb', hscope', -⟩ := ext.block hb
    exact ⟨block', hb', hscope'.trans hscope⟩
  · obtain ⟨hbuffer, hnode⟩ := h.table t b htb
    exact ⟨ext.bufferTable? hbuffer, hnode.extends ext⟩

/-- What the clauses of a table definition have left for its end. -/
structure Deferred (x : UnitIndex) (d : TableDefinition) : Prop where
  like : ∀ s, d.like = some s → s.val < x.tables.size
  indexFields : ∀ p ∈ d.indexFields,
    ∃ index, x.indexes.get? p.index = some index ∧ index.table = d.table

theorem Deferred.extends {x y : UnitIndex} {d : TableDefinition} (ext : x.Extends y)
    (h : Deferred x d) : Deferred y d := by
  refine ⟨fun s hs => ext.tables.lt_size (h.like s hs), fun p hp => ?_⟩
  obtain ⟨index, hindex, htable⟩ := h.indexFields p hp
  obtain ⟨index', hindex', hfix⟩ := ext.indexes p.index index hindex
  have same : index'.fixed.table = index.fixed.table := congrArg TableIndex.table hfix
  exact ⟨index', hindex', same.trans htable⟩

structure Sound (w : Walk) : Prop where
  coherent : w.index.Coherent
  standing : Standing w.index w.frame
  unfrozen : ∀ d, w.tableDefinition = some d → w.index.Unfrozen d.table
  deferred : ∀ d, w.tableDefinition = some d → Deferred w.index d
  lastTable : ∀ b, w.lastTable = some b → w.index.IsBuffer b ∧ w.index.IsAttached b
  previousTable : ∀ b, w.previousTable = some b → w.index.IsBuffer b ∧ w.index.IsAttached b
  forwards : ∀ p ∈ w.forwards, ∃ body, w.index.IsRoutine p.2 body
  qualifiers : ∀ m, w.qualifiers.find? m ≠ some .schemaTableSymbol

/-! ### Moves -/

/-- What is written on node `n` while the walk is at it, short of references: definitions, scopes
and blocks, and the qualifiers of expressions. -/
inductive Mark (env : Env) (n : NodeId) (w : Walk) (a : Annotation) : Annotation → Prop
  | define {s : SymbolId} (found : s.val < w.index.symbols.size)
      (kind : (env.tree.kind n).isName = false)
      (inline : env.tree.kind n = .field → w.index.Sees w.scope s) :
      Mark env n w a { a with symbol := some s }
  | place (scope : Option ScopeId) (block : Option BlockId) :
      Mark env n w a { a with scope, block }
  | qualify (q : Qualifier) (kind : env.tree.kind n = .expression ∨ env.tree.kind n = .formItem ∨
        env.tree.kind n = .memoryManagementFunction) :
      Mark env n w a { a with qualifier := some q }

/-- One move of a walk at node `n`. -/
inductive Move (env : Env) (n : NodeId) (w : Walk) : Walk → Prop
  | index {y : UnitIndex}
      (change : w.index.Change w.openDefinitions (env.tree.kind n).isTypeClause
        (env.tree.kind n).shapesTable y) :
      Move env n w { w with index := y }
  | mark {f : Annotation → Annotation}
      (mark : Mark env n w (w.notes.get n) (f (w.notes.get n))) :
      Move env n w { w with notes := w.notes.update n f }
  | takeQualifier : Move env n w { w with qualifiers := w.qualifiers.erase n }
  | takeHint : Move env n w { w with hints := w.hints.erase n }
  | announce {routine : SymbolId} {body : ScopeId} (key : String)
      (isRoutine : w.index.IsRoutine routine body) :
      Move env n w { w with forwards := (key, routine) :: w.forwards.filter (·.1 ≠ key) }
  | takeForward (key : String) :
      Move env n w { w with forwards := w.forwards.filter (·.1 ≠ key) }
  | clause {d d' : TableDefinition} (found : w.tableDefinition = some d)
      (table : d'.table = d.table) (buffer : d'.buffer = d.buffer)
      (deferred : Deferred w.index d') (shapes : (env.tree.kind n).shapesTable) :
      Move env n w { w with tableDefinition := some d' }

/-- Before node `c` is visited, it is told how it is used or where its name is looked up. -/
inductive Tell (env : Env) (c : NodeId) (w : Walk) : Walk → Prop
  | qualify {q : Qualifier} (asks : (env.tree.kind c).consumesQualifier)
      (plain : q ≠ .schemaTableSymbol) :
      Tell env c w { w with qualifiers := w.qualifiers.set c q }
  | hint (h : TableHint) : Tell env c w { w with hints := w.hints.set c h }

/-- One turn of a walk: something is opened or closed. What is defined comes into being when its
definition is opened, a field joins its table when its definition is closed, and a table is frozen
when its definition ends. -/
inductive Turn (w : Walk) : Walk → Prop
  | reframe {scopes : List ScopeId} {blocks : List BlockId} {event : Option SymbolId}
      (standing : Standing w.index { w.frame with scopes, blocks, event }) :
      Turn w { w with scopeStack := scopes, blockStack := blocks, openEvent := event }
  | define {s : Symbol} (scope : s.scope.val < w.index.scopes.size) (new : s.references = {})
      (kind : w.index.Initial s.kind) (pending : s.attached = false) :
      Turn w { w with
        index := w.index.withSymbol s
        openDefinitions := w.index.symbols.next :: w.openDefinitions }
  | endDefinition {s : SymbolId} {rest : List SymbolId} (opened : w.openDefinitions = s :: rest)
      (plain : w.index.asFieldBuffer? s = none) : Turn w { w with openDefinitions := rest }
  | beginTable {kind : TableKind} (n : NodeId) (name : String) (own : kind ≠ .schema)
      (closed : w.tableDefinition = none) :
      Turn w { w with
        index := w.index.withTable kind n name
        openDefinitions := w.index.symbols.next :: w.openDefinitions
        tableDefinition := some { table := w.index.tables.next, buffer := w.index.symbols.next } }
  | finishTable {d : TableDefinition} (opened : w.tableDefinition = some d) :
      Turn w { w with index := w.index.frozen d.table, tableDefinition := none }
  | beginField {buffer : SymbolId} {owner : Symbol} {b : TableBuffer} (name : String)
      (found : w.index.symbols.get? buffer = some owner) (kind : owner.kind = .tableBuffer b) :
      Turn w { w with
        index := w.index.withField buffer owner b name
        openDefinitions := w.index.symbols.next :: w.openDefinitions }
  | joinField {s : SymbolId} {rest : List SymbolId} {b : FieldBuffer} {t : TableId}
      (opened : w.openDefinitions = s :: rest) (reaches : w.index.asFieldBuffer? s = some b)
      (unfrozen : w.index.Unfrozen t) (owned : w.index.bufferTable? b.buffer = some t) :
      Turn w { w with index := w.index.joined t b.field, openDefinitions := rest }

section Preservation

variable {env : Env} {n : NodeId} {w w' : Walk}

/-- What is new is not being defined yet. -/
theorem Sound.next_notMem (h : Sound w) : w.index.symbols.next ∉ w.openDefinitions :=
  fun hmem => Nat.lt_irrefl _ (h.standing.definitions _ hmem)

theorem Sound.reindex {y : UnitIndex} (h : Sound w) (ext : w.index.Extends y)
    (coherent : y.Coherent) (unfrozen : ∀ d, w.tableDefinition = some d → y.Unfrozen d.table) :
    Sound { w with index := y } where
  coherent := coherent
  standing := h.standing.extends ext
  unfrozen := unfrozen
  deferred d hd := (h.deferred d hd).extends ext
  lastTable b hb := (h.lastTable b hb).imp (·.extends ext) (·.extends ext)
  previousTable b hb := (h.previousTable b hb).imp (·.extends ext) (·.extends ext)
  forwards p hp := by
    obtain ⟨body, hbody⟩ := h.forwards p hp
    exact ⟨body, hbody.extends ext⟩
  qualifiers := h.qualifiers

theorem Move.frame (h : Move env n w w') : w'.frame = w.frame := by
  cases h with
  | clause found table buffer => simp only [Walk.frame, found, Option.map_some, table, buffer]
  | _ => rfl

theorem Move.extends (h : Move env n w w') : w.index.Extends w'.index := by
  cases h with
  | index change => exact change.extends
  | _ => exact .refl _

theorem Move.sound (h : Move env n w w') (hs : Sound w) : Sound w' := by
  have hframe := h.frame
  cases h with
  | index change =>
    exact hs.reindex change.extends (change.coherent hs.coherent) fun d hd =>
      change.unfrozen (hs.unfrozen d hd)
  | mark | takeHint => exact { hs with }
  | takeQualifier =>
    refine { hs with qualifiers := fun m => ?_ }
    rw [SideTable.find?_erase]
    split
    · simp
    · exact hs.qualifiers m
  | announce key isRoutine =>
    refine { hs with forwards := fun p hp => ?_ }
    rcases List.mem_cons.1 hp with rfl | hp
    · exact ⟨_, isRoutine⟩
    · exact hs.forwards p (List.mem_filter.1 hp).1
  | takeForward =>
    exact { hs with forwards := fun p hp => hs.forwards p (List.mem_filter.1 hp).1 }
  | clause found table buffer deferred =>
    refine { hs with standing := hframe ▸ hs.standing, unfrozen := ?_, deferred := ?_ }
    · intro d hd
      cases hd
      exact table ▸ hs.unfrozen _ found
    · intro d hd
      cases hd
      exact deferred

theorem Tell.sound {c : NodeId} (h : Tell env c w w') (hs : Sound w) : Sound w' := by
  cases h with
  | qualify asks plain =>
    refine { hs with qualifiers := fun m => ?_ }
    rw [SideTable.find?_set]
    split
    · simpa using plain
    · exact hs.qualifiers m
  | hint => exact { hs with }

theorem Turn.extends (h : Turn w w') : w.index.Extends w'.index := by
  cases h with
  | reframe | endDefinition => exact .refl _
  | define => exact extends_withSymbol _ _
  | beginTable n name => exact extends_withTable _ _ n name
  | finishTable => exact extends_frozen _ _
  | beginField name found kind => exact extends_withField found kind
  | joinField => exact extends_joined _ _ _

theorem unfrozen_withFields {x : UnitIndex} {t t' : TableId} {fields : List FieldId}
    (h : x.Unfrozen t) : (x.withFields t' fields).Unfrozen t := by
  obtain ⟨table, ht, hfrozen⟩ := h
  have keeps : x.tables.Keeps Table.frozen (x.withFields t' fields).tables :=
    Arena.keeps_update fun _ _ => rfl
  obtain ⟨table', ht', same⟩ := keeps t table ht
  exact ⟨table', ht', same.trans hfrozen⟩

/-- A symbol whose definition has been opened. -/
theorem Standing.define {y : UnitIndex} (hs : Sound w) (ext : w.index.Extends y)
    (new : w.index.symbols.next.val < y.symbols.size) :
    Standing y { w.frame with definitions := w.index.symbols.next :: w.openDefinitions } := by
  refine { hs.standing.extends ext with definitions := fun d hd => ?_ }
  rcases List.mem_cons.1 hd with rfl | hd
  · exact new
  · exact ext.lt_symbols (hs.standing.definitions d hd)

/-- The innermost definition may be closed. -/
theorem Standing.closeDefinition {x : UnitIndex} {F : Frame} {s : SymbolId} {rest : List SymbolId}
    (h : Standing x F) (opened : F.definitions = s :: rest) :
    Standing x { F with definitions := rest } :=
  { h with definitions := fun d hd => h.definitions d (opened ▸ List.mem_cons_of_mem _ hd) }

/-- The table being defined may be given up. -/
theorem Sound.closeTable (hs : Sound w) : Sound { w with tableDefinition := none } :=
  { hs with
    standing := { hs.standing with table := by simp [Walk.frame] }
    unfrozen := by simp
    deferred := by simp }

theorem Turn.sound (h : Turn w w') (hs : Sound w) : Sound w' := by
  have ext := h.extends
  cases h with
  | reframe standing => exact { hs with standing }
  | define scope new kind =>
    have coherent := coherent_withSymbol hs.coherent scope (fun _ _ => kind.kindOk)
      fun _ => kind.reached
    have grown := hs.reindex ext coherent hs.unfrozen
    exact { grown with standing := .define hs ext (by simp [withSymbol, Arena.next]) }
  | endDefinition opened => exact { hs with standing := hs.standing.closeDefinition opened }
  | beginTable n name own closed =>
    have grown := hs.reindex ext (coherent_withTable hs.coherent _ n name) (by simp [closed])
    rename_i kind
    have table := Arena.get?_push_next w.index.tables { name, kind, definitionNode := some n }
    have standing := Standing.define hs ext (by simp [withTable, withSymbol, Arena.next])
    refine { grown with standing := { standing with table := ?_ }, unfrozen := ?_, deferred := ?_ }
    · rintro t b ⟨⟩
      exact ⟨bufferTable?_eq_some.2 ⟨_, _, Arena.get?_push_next _ _, rfl, rfl⟩, _, table, rfl⟩
    · rintro d ⟨⟩
      exact ⟨_, table, rfl⟩
    · rintro d ⟨⟩
      exact ⟨by simp, by simp⟩
  | finishTable opened =>
    exact hs.closeTable.reindex ext (coherent_frozen hs.coherent _) (by simp)
  | beginField name found kind =>
    have grown := hs.reindex ext (coherent_withField hs.coherent found kind) hs.unfrozen
    exact { grown with
      standing := .define hs ext (by simp [withField, reached, Arena.next]) }
  | joinField opened reaches unfrozen =>
    obtain ⟨symbol, hsymbol, hkind⟩ := asFieldBuffer?_eq_some.1 reaches
    have ok := (hs.coherent.symbols hsymbol).kind
    rw [hkind] at ok
    have grown := hs.reindex ext (coherent_joined hs.coherent _ ok.2.2) fun d hd =>
      unfrozen_withFields (hs.unfrozen d hd)
    exact { grown with standing := grown.standing.closeDefinition opened }

theorem Turn.references (h : Turn w w') (i : SymbolId) :
    w'.index.references i = w.index.references i := by
  cases h with
  | define scope new kind => exact references_withSymbol new i
  | beginTable => exact references_withSymbol rfl i
  | beginField => exact references_reached _ _ _ _ _ i
  | reframe | endDefinition | finishTable | joinField => rfl

end Preservation

/-! ### Runs -/

/-- Any number of moves at node `n`. -/
abbrev Moves (env : Env) (n : NodeId) : Walk → Walk → Prop := ReflTransGen (Move env n)

/-- Any number of moves and turns at node `n`. -/
abbrev Runs (env : Env) (n : NodeId) : Walk → Walk → Prop :=
  ReflTransGen fun w w' => Move env n w w' ∨ Turn w w'

section Runs

variable {env : Env} {n : NodeId} {w w' : Walk}

theorem Moves.runs (h : Moves env n w w') : Runs env n w w' := by
  induction h with
  | refl => exact .refl
  | tail _ move ih => exact ih.tail (.inl move)

theorem Turn.runs (h : Turn w w') : Runs env n w w' := .single (.inr h)

theorem Moves.frame (h : Moves env n w w') : w'.frame = w.frame := by
  induction h with
  | refl => rfl
  | tail _ move ih => exact move.frame.trans ih

theorem Moves.scope (h : Moves env n w w') : w'.scope = w.scope := congrArg Frame.scope h.frame

theorem Moves.block (h : Moves env n w w') : w'.block = w.block := congrArg Frame.block h.frame

theorem Runs.extends (h : Runs env n w w') : w.index.Extends w'.index := by
  induction h with
  | refl => exact .refl _
  | tail _ step ih => exact ih.trans (step.elim (·.extends) (·.extends))

theorem Runs.sound (h : Runs env n w w') (hs : Sound w) : Sound w' := by
  induction h with
  | refl => exact hs
  | tail _ step ih => exact step.elim (·.sound ih) (·.sound ih)

/-- What is done while no table is being defined could be done while one is. -/
theorem Move.withTable (h : Move env n w w') (closed : w.tableDefinition = none)
    (d : TableDefinition) :
    Move env n { w with tableDefinition := some d } { w' with tableDefinition := some d } := by
  cases h with
  | index change => exact .index change
  | @mark f mark =>
    refine .mark ?_
    generalize w.notes.get n = a at mark ⊢
    revert mark
    generalize f a = b
    intro mark
    cases mark with
    | define found kind inline => exact .define found kind inline
    | place scope block => exact .place scope block
    | qualify q kind => exact .qualify q kind
  | takeQualifier => exact .takeQualifier
  | takeHint => exact .takeHint
  | announce key isRoutine => exact .announce key isRoutine
  | takeForward key => exact .takeForward key
  | clause found =>
    rw [closed] at found
    cases found

theorem Moves.withTable (h : Moves env n w w') (closed : w.tableDefinition = none)
    (d : TableDefinition) :
    Moves env n { w with tableDefinition := some d } { w' with tableDefinition := some d } := by
  induction h with
  | refl => exact .refl
  | tail before move ih =>
    have frame := congrArg Frame.table (Moves.frame before)
    refine ih.tail (move.withTable ?_ d)
    simpa [Walk.frame, closed] using frame

theorem Moves.unfrozen (h : Moves env n w w') {t : TableId} (ht : w.index.Unfrozen t) :
    w'.index.Unfrozen t := by
  induction h with
  | refl => exact ht
  | tail _ move ih =>
    cases move with
    | index change => exact change.unfrozen ih
    | _ => exact ih

theorem Moves.hasField (h : Moves env n w w') {t : TableId} {f : FieldId}
    (hf : w.index.HasField t f) : w'.index.HasField t f := by
  induction h with
  | refl => exact hf
  | tail _ move ih =>
    cases move with
    | index change => exact change.hasField ih
    | _ => exact ih

/-- What a run does to the annotation of its node, by the marks it makes. -/
theorem Runs.notes {P : Annotation → Annotation → Prop} (h : Runs env n w w')
    (refl : ∀ a, P a a) (trans : ∀ a b c, P a b → P b c → P a c)
    (mark : ∀ v a b, Runs env n w v → Mark env n v a b → P a b) :
    P (w.notes.get n) (w'.notes.get n) := by
  induction h with
  | refl => exact refl _
  | tail before step ih =>
    apply trans _ _ _ ih
    rcases step with move | turn
    · cases move with
      | mark h =>
        rw [Annotations.get_update_self]
        exact mark _ _ _ before h
      | _ => exact refl _
    · cases turn <;> exact refl _

/-- A run leaves the annotations of other nodes as they are. -/
theorem Runs.apart (h : Runs env n w w') {m : NodeId} (hne : m ≠ n) :
    w'.notes.get m = w.notes.get m := by
  induction h with
  | refl => rfl
  | tail _ step ih =>
    rw [← ih]
    rcases step with move | turn
    · cases move with
      | mark => exact Annotations.get_update_of_ne hne.symm _ _
      | _ => rfl
    · cases turn <;> rfl

end Runs

/-! ### What nodes are told -/

abbrev Tells (env : Env) (c : NodeId) : Walk → Walk → Prop := ReflTransGen (Tell env c)

/-- Node `m` has not been told how it is used. -/
def Untold (w : Walk) (m : NodeId) : Prop := w.qualifiers.find? m = none

section Tells

variable {env : Env} {n c m : NodeId} {w w' : Walk}

/-- Telling a node something changes nothing but the side tables. -/
theorem Tells.eq (h : Tells env c w w') :
    ∃ qualifiers hints, w' = { w with qualifiers, hints } := by
  induction h with
  | refl => exact ⟨_, _, rfl⟩
  | tail _ tell ih =>
    obtain ⟨qualifiers, hints, rfl⟩ := ih
    cases tell <;> exact ⟨_, _, rfl⟩

theorem Tells.frame (h : Tells env c w w') : w'.frame = w.frame := by
  obtain ⟨qualifiers, hints, rfl⟩ := h.eq
  rfl

theorem Tells.sound (h : Tells env c w w') (hs : Sound w) : Sound w' := by
  induction h with
  | refl => exact hs
  | tail _ tell ih => exact tell.sound ih

/-- Only the node that is spoken to can hear, and only if it asks. -/
theorem Tells.untold (h : Tells env c w w')
    (hm : m = c → (env.tree.kind c).consumesQualifier = false) (untold : w.Untold m) :
    w'.Untold m := by
  induction h with
  | refl => exact untold
  | tail _ tell ih =>
    cases tell with
    | qualify asks =>
      have hne : c ≠ m := by
        rintro rfl
        rw [hm rfl] at asks
        cases asks
      rw [Untold, SideTable.find?_set, if_neg hne]
      exact ih
    | hint => exact ih

/-- Nothing that is done at a node tells another one how it is used. -/
theorem Runs.untold (h : Runs env n w w') (untold : w.Untold m) : w'.Untold m := by
  induction h with
  | refl => exact untold
  | tail _ step ih =>
    rcases step with move | turn
    · cases move with
      | takeQualifier =>
        rw [Untold, SideTable.find?_erase]
        split
        · rfl
        · exact ih
      | _ => exact ih
    · cases turn <;> exact ih

end Tells

/-! ### Annotations -/

/-- What an annotation says about a name: what it stands for, how it is used, where its value is
stored. -/
def meaning (a : Annotation) : Option SymbolId × Option Qualifier × Option Store :=
  (a.symbol, a.qualifier, a.store)

/-- The symbols on the nodes exist. -/
def InRange (w : Walk) : Prop :=
  ∀ m s, (w.notes.get m).symbol = some s → s.val < w.index.symbols.size

section Notes

variable {env : Env} {n m : NodeId} {w w' : Walk}

theorem Mark.meaning {a b : Annotation} (h : Mark env n w a b) (hn : (env.tree.kind n).isName) :
    Walk.meaning b = Walk.meaning a := by
  cases h with
  | define found kind inline =>
    rw [kind] at hn
    cases hn
  | place => rfl
  | qualify q kind => rcases kind with kind | kind | kind <;> simp [kind] at hn

/-- At a field, the only mark that concerns its meaning is that of a variable defined in it. -/
theorem Mark.field {a b : Annotation} (h : Mark env n w a b) (hn : env.tree.kind n = .field) :
    b.qualifier = a.qualifier ∧ b.store = a.store ∧
      (b.symbol = a.symbol ∨ ∃ s, b.symbol = some s ∧ w.index.Sees w.scope s) := by
  cases h with
  | define found kind inline => exact ⟨rfl, rfl, .inr ⟨_, rfl, inline hn⟩⟩
  | place => exact ⟨rfl, rfl, .inl rfl⟩
  | qualify q kind => simp [hn] at kind

theorem Runs.meaning (h : Runs env n w w') (hm : m ≠ n ∨ (env.tree.kind m).isName) :
    Walk.meaning (w'.notes.get m) = Walk.meaning (w.notes.get m) := by
  by_cases hmn : m = n
  · subst hmn
    have hname := hm.resolve_left fun hne => hne rfl
    exact h.notes (P := fun a b => Walk.meaning b = Walk.meaning a) (fun _ => rfl)
      (fun _ _ _ hab hbc => hbc.trans hab) fun _ _ _ _ mark => mark.meaning hname
  · rw [h.apart hmn]

/-- The moves at a field may define a variable, but they do not say how the field is used. -/
theorem Runs.qualifier (h : Runs env n w w') (hn : env.tree.kind n = .field) :
    (w'.notes.get n).qualifier = (w.notes.get n).qualifier := by
  refine h.notes (P := fun a b => b.qualifier = a.qualifier) (fun _ => rfl)
    (fun _ _ _ hab hbc => hbc.trans hab) ?_
  rintro v a b - mark
  exact (mark.field hn).1

theorem Mark.symbol {a b : Annotation} (h : Mark env n w a b) :
    b.symbol = a.symbol ∨ ∃ s, b.symbol = some s ∧ s.val < w.index.symbols.size := by
  cases h with
  | define found => exact .inr ⟨_, rfl, found⟩
  | _ => exact .inl rfl

/-- The symbol on a node after an update: the one that is written there, or the one it had. -/
theorem symbol_update {notes : Annotations} {m k : NodeId} {f : Annotation → Annotation}
    {s : SymbolId} (h : ((notes.update m f).get k).symbol = some s) :
    m = k ∧ (f (notes.get k)).symbol = some s ∨ m ≠ k ∧ (notes.get k).symbol = some s := by
  by_cases hmk : m = k
  · subst hmk
    rw [Annotations.get_update_self] at h
    exact .inl ⟨rfl, h⟩
  · rw [Annotations.get_update_of_ne hmk] at h
    exact .inr ⟨hmk, h⟩

theorem Runs.inRange (h : Runs env n w w') (hw : w.InRange) : w'.InRange := by
  induction h with
  | refl => exact hw
  | tail before step ih =>
    intro m s hs
    have ext := step.elim (·.extends) (·.extends)
    rcases step with move | turn
    · cases move with
      | mark hmark =>
        rcases symbol_update hs with ⟨rfl, hnew⟩ | ⟨-, hold⟩
        · rcases hmark.symbol with hsame | ⟨s', hs', hlt⟩
          · exact ih n s (hsame ▸ hnew)
          · rw [hnew] at hs'
            cases hs'
            exact hlt
        · exact ih m s hold
      | _ => exact ext.lt_symbols (ih m s hs)
    · cases turn <;> exact ext.lt_symbols (ih m s hs)

end Notes

end Walk

end AblResolve
