import AblResolve.Tree.DataType
/-!
The kinds of nodes of a parse tree. Productions are the constructs that resolution treats in a
way of their own; terminals are leaves whose meaning depends on the node above them.
-/
namespace AblResolve

/-- What a DEFINE statement can define besides variables, tables, buffers and events. -/
inductive WidgetKind where
  | button | image | menu | subMenu | rectangle | query | stream | dataset | dataSource
  | frame | browse
deriving Repr, DecidableEq, Inhabited

namespace WidgetKind

def render : WidgetKind → String
  | button => "BUTTON"
  | image => "IMAGE"
  | menu => "MENU"
  | subMenu => "SUB-MENU"
  | rectangle => "RECTANGLE"
  | query => "QUERY"
  | stream => "STREAM"
  | dataset => "DATASET"
  | dataSource => "DATA-SOURCE"
  | frame => "FRAME"
  | browse => "BROWSE"

/-- The widgets that a name in the position of a field can stand for, in the order in which
they are tried. -/
def fieldLevel : List WidgetKind := [button, image, rectangle, browse]

def isFieldLevel (kind : WidgetKind) : Bool := fieldLevel.contains kind

end WidgetKind

/-- Keywords that change the meaning of the node above them. -/
inductive Keyword where
  | forwards | input | output | inputOutput | return | unique | primary | word
  | frame | browse | buffer | field | thisObject | set | update | get | tempTable | classMark
deriving Repr, DecidableEq, Inhabited

def Keyword.text : Keyword → String
  | forwards => "FORWARD"
  | input => "INPUT"
  | output => "OUTPUT"
  | inputOutput => "INPUT-OUTPUT"
  | .return => "RETURN"
  | unique => "UNIQUE"
  | primary => "PRIMARY"
  | word => "WORD-INDEX"
  | frame => "FRAME"
  | browse => "BROWSE"
  | buffer => "BUFFER"
  | field => "FIELD"
  | thisObject => "THIS-OBJECT"
  | .set => "SET"
  | update => "UPDATE"
  | get => "GET"
  | tempTable => "TEMP-TABLE"
  | classMark => "CLASS"

inductive NodeKind where
  -- compilation units
  | program | classStatement | interfaceStatement
  /-- A statement to which resolution attaches no meaning of its own. -/
  | statement
  -- control blocks
  | doBlock | forBlock | repeatBlock | blockFor | blockIterator | blockWhile | blockPreselect
  -- constructs with a scope of their own
  | procedureStatement | functionStatement | methodStatement | constructorStatement
  | destructorStatement | propertyAccessor | onStatement | catchBlock
  -- definitions and their clauses
  | defineVariable | defineParameter | defineProperty | defineTempTable | defineWorkTable
  | defineBuffer | defineEvent | defineBrowse
  | defineWidget (widget : WidgetKind)
  | functionParameter | bufferParameter | tableParameter
  | asClause | likeClause | extentClause | returnsClause
  | tableLike | tableUseIndex | tableField | tableIndex | indexField
  | browseDisplay | browseEnable
  | dataRelation | relationFields | parentIdRelation | sourceBufferPhrase | keyFields
  | aggregatePhrase | aggregateOption
  -- statements that say how they use their operands
  | assignStatement | assignEqual | bufferCompare | bufferCopy | createStatement
  | deleteStatement | releaseStatement | validateStatement | displayStatement | formStatement
  | enableStatement | findStatement | openQuery | rawTransfer | setStatement | updateStatement
  | promptForStatement | messageStatement | messageOption | systemDialog | runStatement
  | runParameter | runSet | parameterTable | parameterTableHandle | parameterDatasetHandle
  | parameterBuffer
  -- phrases
  | recordPhrase | fieldsPhrase | exceptPhrase | usingPhrase | formItem
  -- expressions and references
  | expression | memoryManagementFunction | recordFunction | widgetAttribute | widgetName
  | field | record
  -- terminals
  | identifier | typeName | literal
  | datatype (type : DataType)
  | keyword (name : Keyword)
deriving Repr, DecidableEq, Inhabited

/-- The kinds of nodes that ask how they are used by the construct above them. -/
@[simp]
def NodeKind.consumesQualifier : NodeKind → Bool
  | field | record | expression | widgetAttribute | formItem | recordPhrase
  | memoryManagementFunction => true
  | _ => false

end AblResolve
