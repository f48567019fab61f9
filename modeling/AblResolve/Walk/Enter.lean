import AblResolve.Walk.Enter.Phrases
import AblResolve.Walk.Enter.References
import AblResolve.Walk.Enter.Routines
import AblResolve.Walk.Enter.Tables
/-!
What each kind of node means.
-/
namespace AblResolve.Walk

/-- Begins the visit of a node and says how it goes on. -/
def enter (env : Env) (n : NodeId) : WalkM (Plan env.tree n) :=
  let t := env.tree
  match t.kind n with
  | .program | .statement | .aggregatePhrase | .messageStatement | .runStatement =>
    return .plain t n
  | .classStatement => enterClass env n .classBody
  | .interfaceStatement => enterClass env n .interface
  -- blocks
  | .doBlock => enterBlock env n .do (plainSteps t n)
  | .repeatBlock => enterBlock env n .repeat (plainSteps t n)
  | .forBlock => enterBlock env n .for (qualifyingSteps t n .recordPhrase .initWeak)
  | .blockFor => return blockForPlan env n
  | .blockIterator => return .operands t n .refUp .ref
  | .blockWhile => return .qualified t n .ref
  | .blockPreselect => return .qualifying t n .recordPhrase .initWeak
  -- routines
  | .procedureStatement => enterNamedRoutine env n .procedure .procedure
  | .methodStatement => enterNamedRoutine env n .method .method
  | .functionStatement => enterFunction env n
  | .constructorStatement => enterRoutine env n "" .constructor .constructor
  | .destructorStatement => enterRoutine env n "" .destructor .destructor
  | .propertyAccessor => enterRoutine env n "" .propertyAccessor .propertyAccessor
  | .onStatement => enterTrigger env n
  | .catchBlock => enterCatch env n
  -- definitions
  | .defineVariable => enterVariable env n
  | .defineParameter | .functionParameter => enterParameter env n
  | .defineProperty => enterProperty env n
  | .defineTempTable => enterTable env n .tempTable
  | .defineWorkTable => enterTable env n .workTable
  | .defineBuffer => enterBuffer env n
  | .defineEvent => enterEvent env n
  | .defineBrowse => enterBrowse env n
  | .defineWidget widget => enterWidget env n widget
  | .bufferParameter => enterBufferParameter env n
  | .tableParameter => enterTableParameter env n
  | .asClause => enterAs env n
  | .likeClause => enterLike env n
  | .extentClause => enterExtent env n
  | .returnsClause => enterReturns env n
  | .tableLike => enterTableLike env n
  | .tableUseIndex => enterUseIndex env n
  | .tableField => enterTableField env n
  | .tableIndex => enterTableIndex env n
  | .browseDisplay | .browseEnable => return .qualified t n .symbol
  | .dataRelation | .parentIdRelation | .sourceBufferPhrase => return .qualifying t n .record .init
  | .relationFields => return relationPlan env n
  | .keyFields | .fieldsPhrase | .exceptPhrase => enterFieldList env n .symbol
  | .usingPhrase => enterFieldList env n (usingQualifier env n)
  | .aggregateOption => enterAggregate env n
  -- statements
  | .assignStatement | .createStatement | .deleteStatement =>
    return .qualifying t n .record .updating
  | .assignEqual => return .operands t n .updating .ref
  | .bufferCompare => return .operands t n .ref .ref
  | .bufferCopy | .rawTransfer => return .operands t n .ref .updating
  | .releaseStatement | .validateStatement | .recordFunction => return .qualifying t n .record .ref
  | .displayStatement => return .qualified t n .ref
  | .formStatement | .enableStatement | .promptForStatement => return .qualified t n .symbol
  | .setStatement | .updateStatement | .systemDialog => return .qualified t n .refUp
  | .findStatement | .openQuery => return .qualifying t n .recordPhrase .init
  | .messageOption => return messagePlan env n
  | .runParameter => return .qualified t n (argumentQualifier t n)
  | .runSet => return .qualified t n .updating
  | .parameterTable => return .qualifying t n .record .tempTableSymbol
  | .parameterTableHandle | .parameterDatasetHandle => return handlePlan env n
  | .parameterBuffer => return .qualifying t n .record .init
  -- phrases, expressions and references
  | .recordPhrase => enterRecordPhrase env n
  | .formItem | .expression => enterExpression env n
  | .memoryManagementFunction => enterMemoryFunction env n
  | .widgetAttribute => enterWidgetAttribute env n
  | .widgetName => enterWidgetName env n
  | .field => enterField env n
  | .record => enterRecord env n
  -- terminals, and the fields of an index, which wait for the end of their table
  | .indexField | .identifier | .typeName | .literal | .datatype _ | .keyword _ => return .done

end AblResolve.Walk
