/-
The vocabulary of node types: the kinds of nodes that a tree of code is made of, and
the direct supertypes of each. Some types only group others and never stand in a
tree themselves.
-/

namespace CodeTree

/-- A node type. The first eight group others; the rest are those of actual nodes and comments. -/
inductive NodeType where
  | printable | node | comment | statement | expression | declaration | pattern | function
  | program | blockStatement | emptyStatement | expressionStatement | ifStatement
  | labeledStatement | breakStatement | continueStatement | switchStatement | switchCase
  | returnStatement | throwStatement | tryStatement | catchClause | whileStatement
  | doWhileStatement | forStatement | forInStatement | debuggerStatement
  | functionDeclaration | variableDeclaration | variableDeclarator
  | identifier | literal | thisExpression | arrayExpression | objectExpression | property
  | functionExpression | arrowFunctionExpression | sequenceExpression | unaryExpression
  | updateExpression | binaryExpression | logicalExpression | assignmentExpression
  | conditionalExpression | callExpression | newExpression | memberExpression | spreadElement
  | yieldExpression
  | block | line
deriving DecidableEq, Repr, Inhabited

namespace NodeType

/-- The name by which a tree refers to a type. -/
def name : NodeType → String
  | printable => "Printable"
  | node => "Node"
  | comment => "Comment"
  | statement => "Statement"
  | expression => "Expression"
  | declaration => "Declaration"
  | pattern => "Pattern"
  | function => "Function"
  | program => "Program"
  | blockStatement => "BlockStatement"
  | emptyStatement => "EmptyStatement"
  | expressionStatement => "ExpressionStatement"
  | ifStatement => "IfStatement"
  | labeledStatement => "LabeledStatement"
  | breakStatement => "BreakStatement"
  | continueStatement => "ContinueStatement"
  | switchStatement => "SwitchStatement"
  | switchCase => "SwitchCase"
  | returnStatement => "ReturnStatement"
  | throwStatement => "ThrowStatement"
  | tryStatement => "TryStatement"
  | catchClause => "CatchClause"
  | whileStatement => "WhileStatement"
  | doWhileStatement => "DoWhileStatement"
  | forStatement => "ForStatement"
  | forInStatement => "ForInStatement"
  | debuggerStatement => "DebuggerStatement"
  | functionDeclaration => "FunctionDeclaration"
  | variableDeclaration => "VariableDeclaration"
  | variableDeclarator => "VariableDeclarator"
  | identifier => "Identifier"
  | literal => "Literal"
  | thisExpression => "ThisExpression"
  | arrayExpression => "ArrayExpression"
  | objectExpression => "ObjectExpression"
  | property => "Property"
  | functionExpression => "FunctionExpression"
  | arrowFunctionExpression => "ArrowFunctionExpression"
  | sequenceExpression => "SequenceExpression"
  | unaryExpression => "UnaryExpression"
  | updateExpression => "UpdateExpression"
  | binaryExpression => "BinaryExpression"
  | logicalExpression => "LogicalExpression"
  | assignmentExpression => "AssignmentExpression"
  | conditionalExpression => "ConditionalExpression"
  | callExpression => "CallExpression"
  | newExpression => "NewExpression"
  | memberExpression => "MemberExpression"
  | spreadElement => "SpreadElement"
  | yieldExpression => "YieldExpression"
  | block => "Block"
  | line => "Line"

/-- Every type, in the order of the vocabulary. -/
def all : List NodeType := [
  .printable, .node, .comment, .statement, .expression, .declaration, .pattern, .function,
  .program, .blockStatement, .emptyStatement, .expressionStatement, .ifStatement,
  .labeledStatement, .breakStatement, .continueStatement, .switchStatement, .switchCase,
  .returnStatement, .throwStatement, .tryStatement, .catchClause, .whileStatement,
  .doWhileStatement, .forStatement, .forInStatement, .debuggerStatement, .functionDeclaration,
  .variableDeclaration, .variableDeclarator, .identifier, .literal, .thisExpression,
  .arrayExpression, .objectExpression, .property, .functionExpression, .arrowFunctionExpression,
  .sequenceExpression, .unaryExpression, .updateExpression, .binaryExpression, .logicalExpression,
  .assignmentExpression, .conditionalExpression, .callExpression, .newExpression,
  .memberExpression, .spreadElement, .yieldExpression, .block, .line ]

theorem mem_all (type : NodeType) : type ∈ all := by
  cases type <;> decide

/-- The type of a name. -/
def ofName? (name : String) : Option NodeType := all.find? (fun type => type.name == name)

/-- Types that only group others. -/
def isAbstract : NodeType → Bool
  | printable | node | comment | statement | expression | declaration | pattern | function => true
  | _ => false

/-- The direct supertypes, in the order in which their fields are inherited. -/
def bases : NodeType → List NodeType
  | printable => []
  | node | comment => [printable]
  | statement | expression | pattern | function => [node]
  | declaration => [statement]
  | program | switchCase | catchClause | variableDeclarator | property | spreadElement => [node]
  | blockStatement | emptyStatement | expressionStatement | ifStatement | labeledStatement
  | breakStatement | continueStatement | switchStatement | returnStatement | throwStatement
  | tryStatement | whileStatement | doWhileStatement | forStatement | forInStatement
  | debuggerStatement => [statement]
  | functionDeclaration => [function, declaration]
  | variableDeclaration => [declaration]
  | identifier => [node, expression, pattern]
  | functionExpression | arrowFunctionExpression => [function, expression]
  | literal | thisExpression | arrayExpression | objectExpression | sequenceExpression
  | unaryExpression | updateExpression | binaryExpression | logicalExpression
  | assignmentExpression | conditionalExpression | callExpression | newExpression
  | memberExpression | yieldExpression => [expression]
  | block | line => [comment]

end NodeType

end CodeTree
