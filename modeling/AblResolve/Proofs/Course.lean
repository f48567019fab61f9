import AblResolve.Proofs.Operations
import AblResolve.Proofs.Placement
import AblResolve.Walk.Enter.Phrases
/-!
The course of a visit. A plan is data, and so is what it does to what is open: `Act` gives the
effect of one action on the frame together with what the action needs, `Opened` what a node has
opened above the children of one step and how that is closed when a child fails, and `Course`
strings the steps of a plan together. All of it still holds when the index grows.
-/
namespace AblResolve.Walk

open UnitIndex

/-- Whether a definition is that of the variable of a CATCH block. -/
def caught (t : ParseTree) (x : UnitIndex) (s : SymbolId) : Bool :=
  (x.variableNode? s).any fun n => t.kind n = .catchBlock

/-- No field of a table is the variable of a CATCH block. -/
theorem not_caught_of_asFieldBuffer? {t : ParseTree} {x : UnitIndex} {s : SymbolId}
    {b : FieldBuffer} (h : x.asFieldBuffer? s = some b) : caught t x s = false := by
  obtain ⟨symbol, hsymbol, hkind⟩ := asFieldBuffer?_eq_some.1 h
  simp [caught, variableNode?, hsymbol, Symbol.asVariable?, hkind]

/-- Whether an action counts a use. -/
def Action.isUse : Action → Bool
  | .countUse .. => true
  | _ => false

/-- Whether an action is about a child that has been visited: it counts a use of it, or binds the
buffer that it stands for. -/
def Action.isLate : Action → Bool
  | .countUse .. | .bindStrongly _ => true
  | _ => false

/-- The further uses that are counted after the visit of a child: those of handles passed in a
mode that writes. -/
def handleUses (env : Env) (n c : NodeId) : List Action :=
  if (env.tree.kind n = .parameterTableHandle ∨ env.tree.kind n = .parameterDatasetHandle) ∧
      env.tree.kind c = .field ∧ (handleMode env n).isWrite then
    [.countUse c (handleMode env n)]
  else []

/-- The record has been found to stand for a buffer in sight from scope `a`. -/
def Resolved (w : Walk) (a : ScopeId) (r : NodeId) : Prop :=
  ∃ b, (w.notes.get r).symbol = some b ∧ w.index.IsBuffer b ∧ w.index.Sees a b ∧
    w.index.IsAttached b

/-- One action at node `n`, from one frame to another. The node was entered in frame `F₀`; `done`
lists the records below it that have been visited from the scope current then. -/
inductive Act (env : Env) (n : NodeId) (x : UnitIndex) (F₀ : Frame) (done : List NodeId) :
    Frame → Action → Frame → Prop
  | leaveScope {F : Frame} {s : ScopeId} {b : BlockId} (around : x.IsAround b s)
      (standing : Standing x F) :
      Act env n x F₀ done { F with scopes := s :: F.scopes, blocks := b :: F.blocks } .leaveScope F
  | leaveBlock {F : Frame} {b : BlockId} (control : x.IsControl b) (standing : Standing x F) :
      Act env n x F₀ done { F with blocks := b :: F.blocks } .leaveBlock F
  | endDefinition (F : Frame) {s : SymbolId} (plain : x.IsPlain s) :
      Act env n x F₀ done { F with definitions := s :: F.definitions } (.endDefinition s) F
  | attach (F : Frame) {s : SymbolId} (attachable : x.Attachable s)
      (closed : s ∉ F.definitions) :
      Act env n x F₀ done F (.attach s) F
  | addParameter (F : Frame) {s : SymbolId} (mode : ParameterMode)
      (attachable : x.Attachable s) (closed : s ∉ F.definitions) :
      Act env n x F₀ done F (.addParameter s mode) F
  | closeEvent (F : Frame) {outer : Option SymbolId}
      (found : ∀ e, outer = some e → x.IsEvent e) :
      Act env n x F₀ done F (.closeEvent outer) { F with event := outer }
  | copyType {F : Frame} (field : NodeId) {target : SymbolId}
      (kind : env.tree.kind n = .likeClause) (isOpen : target ∈ F.definitions) :
      Act env n x F₀ done F (.copyType field target) F
  | setColumns (F : Frame) {browse : SymbolId} (columns : List NodeId)
      (found : browse.val < x.symbols.size) : Act env n x F₀ done F (.setColumns browse columns) F
  | copyFields {F : Frame} {r : NodeId} (kind : env.tree.kind n = .tableLike)
      (visited : r ∈ done) (table : F.table = F₀.table) : Act env n x F₀ done F (.copyFields r) F
  | joinField {F : Frame} {s : SymbolId} {b : FieldBuffer} {t : TableId}
      (reaches : x.asFieldBuffer? s = some b) (table : F.table = some (t, b.buffer)) :
      Act env n x F₀ done { F with definitions := s :: F.definitions } (.joinField b.field s) F
  | closeTable {F : Frame} (t : TableId) (b : SymbolId) (closed : F.table = none)
      (kind : (env.tree.kind n).shapesTable) :
      Act env n x F₀ done
        { F with definitions := b :: F.definitions, table := some (t, b) } (.closeTable b) F
  | defineBuffer (F : Frame) {record : Option NodeId}
      (kind : (env.tree.kind n).isBufferDefinition)
      (same : record = env.tree.childOfKind? n .record)
      (visited : ∀ r, record = some r → r ∈ done) :
      Act env n x F₀ done F (.defineBuffer n record) F
  | addBufferParameter (F : Frame) {record : Option NodeId}
      (kind : (env.tree.kind n).isBufferDefinition)
      (same : record = env.tree.childOfKind? n .record)
      (visited : ∀ r, record = some r → r ∈ done) :
      Act env n x F₀ done F (.addBufferParameter n record) F
  | addTableParameter (F : Frame) {r : NodeId} (mode : ParameterMode) (visited : r ∈ done) :
      Act env n x F₀ done F (.addTableParameter r mode) F
  | bindStrongly {F : Frame} {r : NodeId} (kind : env.tree.kind n = .blockFor)
      (child : r ∈ env.tree.children n) (record : env.tree.kind r = .record)
      (visited : r ∈ done) (scope : F.scope = F₀.scope) : Act env n x F₀ done F (.bindStrongly r) F
  | countUse (F : Frame) {c : NodeId} (q : Qualifier) : Act env n x F₀ done F (.countUse c q) F

/-- Several actions, one after the other. -/
inductive Acts (env : Env) (n : NodeId) (x : UnitIndex) (F₀ : Frame) (done : List NodeId) :
    Frame → List Action → Frame → Prop
  | nil (F : Frame) : Acts env n x F₀ done F [] F
  | cons {F F' F'' : Frame} {action : Action} {actions : List Action}
      (act : Act env n x F₀ done F action F') (rest : Acts env n x F₀ done F' actions F'') :
      Acts env n x F₀ done F (action :: actions) F''

/-- What a node has opened on top of `F` while a child is visited, with the actions that close it
if the child fails. The variable of a CATCH block is not closed then. -/
inductive Opened (t : ParseTree) (x : UnitIndex) (F : Frame) : Frame → List Action → Prop
  | nothing : Opened t x F F []
  | block {b : BlockId} (control : x.IsControl b) :
      Opened t x F { F with blocks := b :: F.blocks } [.leaveBlock]
  | scope {s : ScopeId} {b : BlockId} (around : x.IsAround b s) :
      Opened t x F { F with scopes := s :: F.scopes, blocks := b :: F.blocks } [.leaveScope]
  | definition {d : SymbolId} (plain : x.IsPlain d) (closes : caught t x d = false) :
      Opened t x F { F with definitions := d :: F.definitions } [.endDefinition d]
  | event {d : SymbolId} (plain : x.IsPlain d) (closes : caught t x d = false) :
      Opened t x F { F with definitions := d :: F.definitions, event := some d }
        [.closeEvent F.event, .endDefinition d]
  | table (table : TableId) {d : SymbolId} (plain : x.IsPlain d)
      (closes : caught t x d = false) (closed : F.table = none) :
      Opened t x F { F with definitions := d :: F.definitions, table := some (table, d) }
        [.abandonTable d]
  | field {d : SymbolId} {b : FieldBuffer} {id : TableId} (reaches : x.asFieldBuffer? d = some b)
      (table : F.table = some (id, b.buffer)) :
      Opened t x F { F with definitions := d :: F.definitions } [.joinField b.field d]
  | catch {s : ScopeId} {b : BlockId} {d : SymbolId} (around : x.IsAround b s)
      (found : d.val < x.symbols.size) (kept : caught t x d = true) :
      Opened t x F { F with
        scopes := s :: F.scopes, blocks := b :: F.blocks, definitions := d :: F.definitions }
        [.leaveScope]

/-- The steps that are left of a plan at node `n`, from frame `F` back to the frame `F₀` in which
the node was entered. -/
inductive Course (env : Env) (n : NodeId) (x : UnitIndex) (F₀ : Frame) (leave : List Action) :
    List NodeId → Frame → List (Step env.tree n) → Prop
  | leave {done : List NodeId} {F : Frame} (acts : Acts env n x F₀ done F leave F₀)
      (quiet : ∀ a ∈ leave, a.isLate = false) : Course env n x F₀ leave done F []
  | step {done done' : List NodeId} {F F' F'' : Frame} {step : Step env.tree n}
      {rest : List (Step env.tree n)}
      (before : Acts env n x F₀ done F step.before F')
      (opened : Opened env.tree x F₀ F' step.onFailure)
      (visited : ∀ r ∈ done', r ∈ done ∨
        r = step.child.val ∧ env.tree.kind r = .record ∧ F'.scope = F₀.scope)
      (after : Acts env n x F₀ done' F' step.after F'')
      (quiet : ∀ a ∈ step.before, a.isLate = false)
      (uses : step.after.filter (·.isUse) = handleUses env n step.child.val)
      (once : ∀ s ∈ rest, s.child.val ≠ step.child.val)
      (plain : step.qualifier ≠ some .schemaTableSymbol)
      (fits : env.tree.WellPlaced → Fits env.tree n F₀ → Fits env.tree step.child.val F')
      (course : Course env n x F₀ leave done' F'' rest) :
      Course env n x F₀ leave done F (step :: rest)

section Extends

variable {env : Env} {n : NodeId} {x y : UnitIndex} {F₀ : Frame} {done : List NodeId}
  {F F' : Frame} (ext : x.Extends y)
include ext

theorem caught_extends {t : ParseTree} {s : SymbolId} (h : s.val < x.symbols.size) :
    caught t y s = caught t x s := by
  rw [caught, ext.variableNode? h, caught]

theorem Act.extends {action : Action} (h : Act env n x F₀ done F action F') :
    Act env n y F₀ done F action F' := by
  cases h with
  | leaveScope around standing => exact .leaveScope (around.extends ext) (standing.extends ext)
  | leaveBlock control standing => exact .leaveBlock (control.extends ext) (standing.extends ext)
  | endDefinition F plain => exact .endDefinition _ (plain.extends ext)
  | attach F attachable closed => exact .attach _ (attachable.extends ext) closed
  | addParameter F mode attachable closed =>
    exact .addParameter _ mode (attachable.extends ext) closed
  | closeEvent F found => exact .closeEvent _ fun e he => (found e he).extends ext
  | copyType field kind isOpen => exact .copyType field kind isOpen
  | setColumns F columns found => exact .setColumns _ columns (ext.lt_symbols found)
  | copyFields kind visited table => exact .copyFields kind visited table
  | joinField reaches table => exact .joinField (ext.asFieldBuffer? reaches) table
  | closeTable t b closed kind => exact .closeTable t b closed kind
  | defineBuffer F kind same visited => exact .defineBuffer _ kind same visited
  | addBufferParameter F kind same visited => exact .addBufferParameter _ kind same visited
  | addTableParameter F mode visited => exact .addTableParameter _ mode visited
  | bindStrongly kind child record visited scope =>
    exact .bindStrongly kind child record visited scope
  | countUse F q => exact .countUse _ q

theorem Acts.extends {actions : List Action} (h : Acts env n x F₀ done F actions F') :
    Acts env n y F₀ done F actions F' := by
  induction h with
  | nil F => exact .nil F
  | cons act _ ih => exact .cons (act.extends ext) ih

theorem Opened.extends {t : ParseTree} {onFailure : List Action}
    (h : Opened t x F F' onFailure) : Opened t y F F' onFailure := by
  cases h with
  | nothing => exact .nothing
  | block control => exact .block (control.extends ext)
  | scope around => exact .scope (around.extends ext)
  | definition plain closes =>
    exact .definition (plain.extends ext) ((caught_extends ext plain.1).trans closes)
  | event plain closes =>
    exact .event (plain.extends ext) ((caught_extends ext plain.1).trans closes)
  | table t plain closes closed =>
    exact .table t (plain.extends ext) ((caught_extends ext plain.1).trans closes) closed
  | field reaches table => exact .field (ext.asFieldBuffer? reaches) table
  | «catch» around found kept =>
    exact .catch (around.extends ext) (ext.lt_symbols found) ((caught_extends ext found).trans kept)

theorem Course.extends {leave : List Action} {steps : List (Step env.tree n)}
    (h : Course env n x F₀ leave done F steps) :
    Course env n y F₀ leave done F steps := by
  induction h with
  | leave acts quiet => exact .leave (acts.extends ext) quiet
  | step before opened visited after quiet uses once plain fits _ ih =>
    exact .step (before.extends ext) (opened.extends ext) visited (after.extends ext) quiet uses
      once plain fits ih

end Extends

end AblResolve.Walk
