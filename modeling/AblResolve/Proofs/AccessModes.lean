import AblResolve.Proofs.DeedsOfPlans
import AblResolve.Proofs.Likeness
import AblResolve.Proofs.ReadBack
/-!
Access modes. How a node is used is decided by the constructs around it: each tells its parts how it
uses them, and expressions, form items and record phrases pass on what they were told themselves.
`assigned?` is this rule for one construct and `mode?` follows it from the top of a tree down to a
node; both see kinds of nodes and nothing else. `enter_assigns` proves that plans follow the rule.
-/
namespace AblResolve

namespace ParseTree

variable (t : ParseTree)

/-! ### The rule -/

/-- The first part of a construct that asks how it is used. -/
def firstOperand? (n : NodeId) : Option NodeId :=
  (t.children n).find? fun c => (t.kind c).consumesQualifier

/-- The first part that asks is used in one way, those after it in another. -/
def operandMode? (n : NodeId) (first rest : Qualifier) (c : NodeId) : Option Qualifier :=
  if (t.kind c).consumesQualifier then
    some (if t.firstOperand? n = some c then first else rest)
  else none

/-- Parts of one kind are used in this way. -/
def modeOfKind? (kind : NodeKind) (q : Qualifier) (c : NodeId) : Option Qualifier :=
  if t.kind c = kind then some q else none

/-- The first part of a kind is used in this way. -/
def modeOfFirst? (n : NodeId) (kind : NodeKind) (q : Qualifier) (c : NodeId) : Option Qualifier :=
  if t.childOfKind? n kind = some c then some q else none

/-- How the construct at node `n`, which is itself used as `q` says, uses its part `c`, if it says
so. -/
def assigned? (n : NodeId) (q : Qualifier) (c : NodeId) : Option Qualifier :=
  match t.kind n with
  -- blocks
  | .forBlock | .blockPreselect => t.modeOfKind? .recordPhrase .initWeak c
  | .blockFor => t.modeOfKind? .record .bufferSymbol c
  | .blockIterator => t.operandMode? n .refUp .ref c
  | .blockWhile => some .ref
  -- definitions
  | .defineBuffer | .bufferParameter =>
    t.modeOfFirst? n .record (if t.hasKeyword n .tempTable then .tempTableSymbol else .symbol) c
  | .tableParameter => t.modeOfFirst? n .record .tempTableSymbol c
  | .defineWidget widget => Walk.widgetQualifier? widget
  | .likeClause => t.modeOfFirst? n .field .symbol c
  | .tableLike => t.modeOfFirst? n .record .symbol c
  | .browseDisplay | .browseEnable => some .symbol
  | .dataRelation | .parentIdRelation | .sourceBufferPhrase => t.modeOfKind? .record .init c
  | .relationFields | .keyFields | .fieldsPhrase | .exceptPhrase => t.modeOfKind? .field .symbol c
  | .usingPhrase => t.modeOfKind? .field (Walk.usingQualifier { tree := t } n) c
  -- statements
  | .assignStatement | .createStatement | .deleteStatement => t.modeOfKind? .record .updating c
  | .assignEqual => t.operandMode? n .updating .ref c
  | .bufferCompare => t.operandMode? n .ref .ref c
  | .bufferCopy | .rawTransfer => t.operandMode? n .ref .updating c
  | .releaseStatement | .validateStatement | .recordFunction => t.modeOfKind? .record .ref c
  | .displayStatement => some .ref
  | .formStatement | .enableStatement | .promptForStatement => some .symbol
  | .setStatement | .updateStatement | .systemDialog => some .refUp
  | .findStatement | .openQuery => t.modeOfKind? .recordPhrase .init c
  | .messageOption =>
    if t.hasKeyword n .set || t.hasKeyword n .update then t.modeOfKind? .field .refUp c else none
  | .runParameter => some (Walk.argumentQualifier t n)
  | .runSet => some .updating
  | .parameterTable => t.modeOfKind? .record .tempTableSymbol c
  | .parameterTableHandle | .parameterDatasetHandle => t.modeOfKind? .field .init c
  | .parameterBuffer => t.modeOfKind? .record .init c
  -- phrases and expressions
  | .recordPhrase => t.modeOfKind? .record q c
  | .formItem | .expression => some q
  | .memoryManagementFunction => t.operandMode? n .updating .ref c
  | .widgetAttribute => if (t.children n).head? = some c then some .ref else none
  | _ => none

/-- How a node is used, if the constructs around it say so and if it is of a kind that asks. The
root says nothing about its children. -/
def mode? (n : NodeId) : Option Qualifier :=
  if (t.kind n).consumesQualifier then
    match _h : t.parent? n with
    | some p => if p = root then none else t.assigned? p ((mode? p).getD .ref) n
    | none => none
  else none
termination_by n.val
decreasing_by exact (lt_of_mem_children (mem_children_of_parent? _h)).1

/-- How a node is used; it is read if nothing else is said. -/
def mode (n : NodeId) : Qualifier := (t.mode? n).getD .ref

/-- The node whose mode is written on node `n`: a member is used like the reference that names
it. -/
def modeHolder (n : NodeId) : NodeId :=
  if t.kind n = .identifier then (t.parent? n).getD n else n

variable {t}

theorem mode?_eq (n : NodeId) : t.mode? n =
    if (t.kind n).consumesQualifier then
      (t.parent? n).bind fun p =>
        if p = root then none else t.assigned? p ((t.mode? p).getD .ref) n
    else none := by
  rw [mode?]
  cases h : t.parent? n <;> rfl

theorem mode?_of_not_consumes {n : NodeId} (h : (t.kind n).consumesQualifier = false) :
    t.mode? n = none := by
  rw [mode?_eq, h]
  rfl

theorem mode?_child {n c : NodeId} (hn : n ≠ root) (child : c ∈ t.children n)
    (asks : (t.kind c).consumesQualifier) : t.mode? c = t.assigned? n (t.mode n) c := by
  rw [mode?_eq, if_pos asks, parent?_of_mem_children child, Option.bind_some, if_neg hn]
  rfl

theorem mode?_child_root {c : NodeId} (child : c ∈ t.children root) : t.mode? c = none := by
  rw [mode?_eq, parent?_of_mem_children child, Option.bind_some, if_pos rfl, ite_self]

theorem modeHolder_of_ne {n : NodeId} (h : t.kind n ≠ .identifier) : t.modeHolder n = n :=
  if_neg h

theorem modeHolder_member {n c : NodeId} (child : c ∈ t.children n)
    (identifier : t.kind c = .identifier) : t.modeHolder c = n := by
  rw [modeHolder, if_pos identifier, parent?_of_mem_children child]
  rfl

/-- Expressions and form items use their parts as they are used themselves. -/
theorem mode_child_of_expression {n c : NodeId} (hn : n ≠ root) (child : c ∈ t.children n)
    (kind : t.kind n = .expression ∨ t.kind n = .formItem)
    (asks : (t.kind c).consumesQualifier) : t.mode c = t.mode n := by
  rw [mode, mode?_child hn child asks, assigned?]
  rcases kind with kind | kind <;> rw [kind] <;> rfl

/-! ### Trees of the same shape -/

namespace SameShape

variable {t' : ParseTree} (h : t.SameShape t')
include h

theorem assigned? : t.assigned? = t'.assigned? := by
  have operand : t.operandMode? = t'.operandMode? := by
    funext n first rest c
    rw [operandMode?, firstOperand?, h.kind, h.children]
    rfl
  have ofKind : t.modeOfKind? = t'.modeOfKind? := by
    funext kind q c
    rw [modeOfKind?, h.kind]
    rfl
  have ofFirst : t.modeOfFirst? = t'.modeOfFirst? := by
    funext n kind q c
    rw [modeOfFirst?, h.childOfKind?]
    rfl
  have list : Walk.usingQualifier { tree := t } = Walk.usingQualifier { tree := t' } := by
    funext n
    simp only [Walk.usingQualifier, h.parent?, h.kind]
  have argument : Walk.argumentQualifier t = Walk.argumentQualifier t' := by
    funext n
    simp only [Walk.argumentQualifier, h.hasKeyword]
  funext n q c
  simp only [ParseTree.assigned?, operand, ofKind, ofFirst, list, argument, h.kind, h.children,
    h.hasKeyword]

theorem mode? (n : NodeId) : t.mode? n = t'.mode? n := by
  obtain ⟨n⟩ := n
  induction n using Nat.strongRecOn with
  | ind n ih =>
    rw [mode?_eq, mode?_eq, h.kind, h.parent?, h.assigned?]
    congr 1
    refine Option.bind_congr fun p hp => ?_
    rw [ih p.val (lt_of_mem_children (mem_children_of_parent? hp)).1]

theorem mode (n : NodeId) : t.mode n = t'.mode n := by
  rw [ParseTree.mode, h.mode?, ParseTree.mode]

theorem modeHolder (n : NodeId) : t.modeHolder n = t'.modeHolder n := by
  rw [ParseTree.modeHolder, h.kind, h.parent?]
  rfl

end SameShape

end ParseTree

/-! ### Plans -/

namespace Walk

open ParseTree

variable {env : Env} {n : NodeId}

/-- The steps tell the children how they are used as `a` says. -/
def Assign {t : ParseTree} (a : NodeId → Option Qualifier) (steps : List (Step t n)) : Prop :=
  ∀ s ∈ steps, s.qualifier = a s.child.val

section Steps

variable {t : ParseTree} {a : NodeId → Option Qualifier} {steps : List (Step t n)}

theorem Assign.nil : Assign a ([] : List (Step t n)) := fun _ hs => absurd hs List.not_mem_nil

theorem Assign.map {f : t.Child n → Step t n} {cs : List (t.Child n)}
    (h : ∀ c, (f c).qualifier = a (f c).child.val) : Assign a (cs.map f) := by
  intro s hs
  obtain ⟨c, -, rfl⟩ := List.mem_map.1 hs
  exact h c

theorem Assign.plain (h : ∀ c, a c = none) {cs : List (t.Child n)} :
    Assign a (cs.map Step.plain) :=
  .map fun c => (h c.val).symm

theorem Assign.cons {s : Step t n} (h : s.qualifier = a s.child.val) (rest : Assign a steps) :
    Assign a (s :: steps) := by
  intro s' hs
  rcases List.mem_cons.1 hs with rfl | hs
  · exact h
  · exact rest s' hs

theorem Assign.tail {s : Step t n} (h : Assign a (s :: steps)) : Assign a steps :=
  fun s' hs => h s' (List.mem_cons_of_mem _ hs)

theorem Assign.append {steps' : List (Step t n)} (h : Assign a steps) (k : Assign a steps') :
    Assign a (steps ++ steps') :=
  fun s hs => (List.mem_append.1 hs).elim (h s) (k s)

theorem Assign.guard (h : Assign a steps) (undo : List Action) :
    Assign a (steps.map (Step.guard undo)) := by
  intro s hs
  obtain ⟨s', hs', rfl⟩ := List.mem_map.1 hs
  exact h s' hs'

/-- Children of one kind are told how they are used, whatever else is done about them. -/
theorem Assign.ofKind (kind : NodeKind) (q : Qualifier) {told : t.Child n → Step t n}
    (h : ∀ c, (told c).child = c ∧ (told c).qualifier = some q) :
    Assign (t.modeOfKind? kind q)
      ((t.childList n).map fun c => if t.kind c.val = kind then told c else .plain c) := by
  intro s hs
  obtain ⟨c, -, rfl⟩ := List.mem_map.1 hs
  obtain ⟨child, qualifier⟩ := h c
  split
  · rename_i hkind
    rw [qualifier, child]
    exact (if_pos hkind).symm
  · rename_i hkind
    exact (if_neg hkind).symm

theorem Assign.only (kind : NodeKind) (q : Qualifier) :
    Assign (t.modeOfFirst? n kind q) (onlySteps t n kind q) := by
  intro s hs
  obtain ⟨c, hc, rfl⟩ := List.mem_map.1 hs
  have first : t.childOfKind? n kind = some c.val := by simpa using (List.mem_filter.1 hc).2
  exact (if_pos first).symm

theorem Assign.relation (h : TableHint) (cs : List (t.Child n)) :
    Assign (t.modeOfKind? .field .symbol) (relationSteps t n h cs) := by
  induction cs generalizing h with
  | nil => exact .nil
  | cons c cs ih =>
    rw [relationSteps]
    split
    · rename_i hfield
      exact .cons (if_pos hfield).symm (ih _)
    · rename_i hfield
      exact .cons (if_neg hfield).symm (ih _)

/-- Once the first child that asks has been passed, the others are told the same. -/
theorem Assign.go_rest (rest : Qualifier) (cs : List (t.Child n)) :
    Assign (fun c => if (t.kind c).consumesQualifier then some rest else none)
      (operandSteps.go t n rest rest cs) := by
  induction cs with
  | nil => exact .nil
  | cons c cs ih =>
    rw [operandSteps.go]
    split
    · rename_i asks
      exact .cons (if_pos asks).symm ih
    · rename_i asks
      exact .cons (if_neg asks).symm ih

/-- The first of these children that asks is told one qualifier, those after it the other. -/
theorem Assign.go (first rest : Qualifier) {cs : List (t.Child n)}
    (nodup : (cs.map (·.val)).Nodup) :
    Assign (fun c => if (t.kind c).consumesQualifier then
        some (if (cs.map (·.val)).find? (fun c => (t.kind c).consumesQualifier) = some c then first
          else rest) else none)
      (operandSteps.go t n rest first cs) := by
  induction cs with
  | nil => exact .nil
  | cons c cs ih =>
    rw [List.map_cons, List.nodup_cons] at nodup
    rw [operandSteps.go, List.map_cons]
    split
    · rename_i asks
      rw [List.find?_cons_of_pos (p := fun c => (t.kind c).consumesQualifier) asks]
      refine .cons (by rw [if_pos asks, if_pos rfl]) fun s hs => ?_
      -- the steps that follow visit other children
      have child : s.child ∈ cs := child_operandSteps rest rest cs ▸ List.mem_map_of_mem hs
      have other : some c.val ≠ some s.child.val := by
        rintro heq
        exact nodup.1 (Option.some.inj heq ▸ List.mem_map_of_mem child)
      rw [Assign.go_rest rest cs s hs, if_neg other]
    · rename_i asks
      rw [List.find?_cons_of_neg (p := fun c => (t.kind c).consumesQualifier) asks]
      exact .cons (if_neg asks).symm (ih nodup.2)

/-- The first child that asks is told one qualifier, the others that ask are told the other. -/
theorem Assign.operands (first rest : Qualifier) :
    Assign (t.operandMode? n first rest) (operandSteps t n first rest) := by
  have go := Assign.go first rest (nodup_childList t n)
  rwa [ParseTree.childList, List.attach_map_subtype_val] at go

end Steps

/-- A plan follows the rule for its node, which is used as `q` says. -/
def Plan.Assigns (q : Qualifier) (p : Plan env.tree n) : Prop :=
  Assign (fun c => env.tree.assigned? n q c) p.steps

/-- A plan that says nothing about how the children are used. -/
def Plan.Tacit {t : ParseTree} (p : Plan t n) : Prop := Assign (fun _ => none) p.steps

theorem Plan.Tacit.plain : (Plan.plain env.tree n).Tacit := Assign.plain fun _ => rfl

theorem Plan.Tacit.scoped : (scopedPlan env n).Tacit := Assign.guard (.plain fun _ => rfl) _

theorem Plan.Tacit.done {t : ParseTree} : (Plan.done : Plan t n).Tacit := Assign.nil

/-- The kinds of nodes that pass on how they are used. -/
def HandsOn (kind : NodeKind) : Prop :=
  kind = .expression ∨ kind = .formItem ∨ kind = .recordPhrase

section Enter

variable (env n)

theorem assign_messagePlan : Assign (fun c =>
    if env.tree.hasKeyword n .set || env.tree.hasKeyword n .update then
      env.tree.modeOfKind? .field .refUp c else none) (messagePlan env n).steps := by
  unfold messagePlan
  split
  · exact .map fun _ => rfl
  · exact .plain fun _ => rfl

/-- The object of a reference is read; nothing is said about its members. -/
theorem assign_widgetAttribute {target : env.tree.Child n} {rest : List (env.tree.Child n)}
    (children : env.tree.childList n = target :: rest) :
    Assign (fun c => if (env.tree.children n).head? = some c then some Qualifier.ref else none)
      ({ child := target, qualifier := some .ref } :: rest.map Step.plain :
        List (Step env.tree n)) := by
  have list : env.tree.children n = target.val :: rest.map (·.val) := by
    rw [← List.map_cons, ← children, ParseTree.childList, List.attach_map_subtype_val]
  rw [list, List.head?_cons]
  refine .cons (if_pos rfl).symm fun s hs => ?_
  obtain ⟨c, hc, rfl⟩ := List.mem_map.1 hs
  have other : some target.val ≠ some c.val := by
    have once := list ▸ env.tree.nodup_children n
    rintro heq
    exact (List.nodup_cons.1 once).1 (Option.some.inj heq ▸ List.mem_map_of_mem hc)
  exact (if_neg other).symm

theorem yields_assigns_widgetAttribute : Yields (enterWidgetAttribute env n) fun p =>
    Assign (fun c => if (env.tree.children n).head? = some c then some Qualifier.ref else none)
      p.steps := by
  refine .bind fun q => ?_
  cases children : env.tree.childList n with
  | nil => exact .pure .nil
  | cons target rest =>
    have assign := assign_widgetAttribute env n children
    refine .bind fun x => ?_
    split
    · cases memberNode? env n rest with
      | none => exact .pure assign.tail
      | some member => exact .bind fun _ => .pure assign.tail
    · exact .pure assign

theorem yields_assigns (q : Qualifier) (own : ¬ HandsOn (env.tree.kind n)) :
    Yields (enter env n) (Plan.Assigns q) := by
  unfold Plan.Assigns assigned? enter
  dsimp only
  cases hkind : env.tree.kind n with
  | program | statement | aggregatePhrase | messageStatement | runStatement =>
    exact .pure (.plain fun _ => rfl)
  | classStatement | interfaceStatement => exact yields_enterClass env n Plan.Tacit.plain _
  | doBlock | repeatBlock => exact .bind fun _ => .pure (.guard (.plain fun _ => rfl) _)
  | forBlock => exact .bind fun _ => .pure (.guard (.map fun _ => rfl) _)
  | blockFor =>
    exact .pure (.ofKind _ _ fun _ => ⟨rfl, rfl⟩)
  | blockIterator | assignEqual | bufferCompare | bufferCopy | rawTransfer =>
    exact .pure (.operands _ _)
  | blockWhile | browseDisplay | browseEnable | displayStatement | formStatement
  | enableStatement | promptForStatement | setStatement | updateStatement | systemDialog
  | runSet | runParameter => exact .pure (.map fun _ => rfl)
  | blockPreselect | dataRelation | parentIdRelation | sourceBufferPhrase | assignStatement
  | createStatement | deleteStatement | releaseStatement | validateStatement | recordFunction
  | findStatement | openQuery | parameterTable | parameterBuffer =>
    exact .pure (.map fun _ => rfl)
  | procedureStatement | methodStatement | constructorStatement | destructorStatement
  | propertyAccessor => exact yields_enterRoutine env n Plan.Tacit.scoped _ _ _
  | functionStatement => exact yields_enterFunction env n Plan.Tacit.scoped
  | onStatement => exact yields_enterTrigger env n Plan.Tacit.scoped
  | catchBlock => exact .bind fun _ => .bind fun _ => .pure (.guard (.map fun _ => rfl) _)
  | defineVariable | defineParameter | functionParameter | defineBrowse =>
    exact .bind fun _ => .pure (.guard (.plain fun _ => rfl) _)
  | defineProperty =>
    refine .bind fun _ => ?_
    dsimp only
    split
    · exact .pure (.map fun _ => rfl)
    · exact .pure (.append (.map fun _ => rfl) (.cons rfl (.plain fun _ => rfl)))
  | defineTempTable | defineWorkTable | tableField =>
    exact .bind fun _ => .pure (.guard (.plain fun _ => rfl) _)
  | defineBuffer | bufferParameter | tableParameter => exact .pure (.map fun _ => rfl)
  | defineEvent =>
    exact .bind fun _ => .bind fun _ => .bind fun _ => .pure (.guard (.plain fun _ => rfl) _)
  | defineWidget widget =>
    refine .bind fun _ => .pure (.guard ?_ _)
    cases widget <;> exact .map fun _ => rfl
  | asClause => exact yields_enterAs env n Plan.Tacit.done
  | likeClause =>
    refine .bind fun _ => ?_
    cases source : env.tree.childOfKind? n .field with
    | some source => exact .pure (.only .field .symbol)
    | none => exact .pure (.plain fun c => by simp [modeOfFirst?, source])
  | extentClause => exact .bind fun _ => .bind fun _ => .pure (.plain fun _ => rfl)
  | returnsClause => exact yields_enterReturns env n Plan.Tacit.done
  | tableLike =>
    unfold enterTableLike
    cases record : env.tree.childOfKind? n .record with
    | some record => exact .pure (.only .record .symbol)
    | none => exact .pure (.plain fun c => by simp [modeOfFirst?, record])
  | tableUseIndex | tableIndex => exact .bind fun _ => .pure .nil
  | relationFields => exact .pure (.relation _ _)
  | keyFields | fieldsPhrase | exceptPhrase | usingPhrase =>
    exact .bind fun _ => .pure (.ofKind .field _ fun _ => ⟨rfl, rfl⟩)
  | aggregateOption => exact yields_enterAggregate env n Plan.Tacit.plain
  | messageOption => exact .pure (assign_messagePlan env n)
  | parameterTableHandle | parameterDatasetHandle =>
    exact .pure (.ofKind _ _ fun _ => ⟨rfl, rfl⟩)
  | memoryManagementFunction => exact .bind fun _ => .bind fun _ => .pure (.operands _ _)
  | widgetAttribute => exact yields_assigns_widgetAttribute env n
  | widgetName => exact yields_enterWidgetName env n Plan.Tacit.done
  | field => exact yields_enterField env n Plan.Tacit.plain
  | record => exact yields_enterRecord env n Plan.Tacit.plain
  | indexField | identifier | typeName | literal | datatype | keyword => exact .pure .nil
  | recordPhrase | formItem | expression => exact absurd hkind (by simp_all [HandsOn])

/-- Every plan follows the rule. -/
theorem enter_assigns {w w' : Walk} {plan : Plan env.tree n}
    (hok : enter env n w = .ok plan w') : plan.Assigns (w.qualifierAt n) := by
  by_cases passes : HandsOn (env.tree.kind n)
  · unfold Plan.Assigns assigned?
    rcases passes with hkind | hkind | hkind <;> simp only [enter, hkind] at hok ⊢ <;>
      obtain ⟨q, w₁, htake, hrest⟩ := bind_ok.1 hok <;>
      obtain ⟨rfl, -⟩ := takeQualifier_ok htake <;> cases hrest
    all_goals exact .map fun _ => rfl
  · exact (yields_assigns env n _ passes).ok hok

end Enter

end Walk

end AblResolve
