/-
Construction of nodes. Each function gives a fresh node of its type, with the `type`
first and the fields in the order of the schema. An argument that may be left out is
null where it is.
-/

import CodeTree.Value.Typed

namespace CodeTree

namespace Build

abbrev Builder := StateM Store Value

/-- A fresh node of a type with the given fields. -/
def node (type : NodeType) (fields : List (String × Value)) : Builder :=
  Store.allocateObject (("type", .text type.name) :: fields)

/-- A fresh node one field of which is a fresh list. -/
def listNode (type : NodeType) (before : List (String × Value)) (field : String) (items : List Value)
    (after : List (String × Value)) : Builder := do
  node type (before ++ (field, ← Store.allocateArray items) :: after)

/-! ### Statements and declarations -/

def program (body : List Value) : Builder := listNode .program [] "body" body []

def blockStatement (body : List Value) : Builder := listNode .blockStatement [] "body" body []

def emptyStatement : Builder := node .emptyStatement []

def debuggerStatement : Builder := node .debuggerStatement []

def expressionStatement (expression : Value) : Builder :=
  node .expressionStatement [("expression", expression)]

def ifStatement (test consequent : Value) (alternate : Value) : Builder :=
  node .ifStatement [("test", test), ("consequent", consequent), ("alternate", alternate)]

def returnStatement (argument : Value) : Builder := node .returnStatement [("argument", argument)]

def forStatement (init test update body : Value) : Builder :=
  node .forStatement [("init", init), ("test", test), ("update", update), ("body", body)]

def catchClause (param body : Value) : Builder := node .catchClause [("param", param), ("body", body)]

def tryStatement (block handler finalizer : Value) : Builder :=
  node .tryStatement [("block", block), ("handler", handler), ("finalizer", finalizer)]

def variableDeclaration (kind : String) (declarations : List Value) : Builder :=
  listNode .variableDeclaration [("kind", .text kind)] "declarations" declarations []

def variableDeclarator (id init : Value) : Builder :=
  node .variableDeclarator [("id", id), ("init", init)]

/-! ### Functions -/

/-- A function of a type; `concise` tells that its body is an expression. -/
def functionNode (type : NodeType) (id : Value) (params : List Value) (body : Value)
    (concise : Bool) : Builder :=
  listNode type [("id", id)] "params" params
    [("body", body), ("generator", .bool false), ("expression", .bool concise)]

def functionDeclaration (id : Value) (params : List Value) (body : Value) : Builder :=
  functionNode .functionDeclaration id params body false

def functionExpression (id : Value) (params : List Value) (body : Value) : Builder :=
  functionNode .functionExpression id params body false

/-- An arrow function. Its body is an expression unless it is a block. -/
def arrowFunctionExpression (params : List Value) (body : Value) : Builder := do
  functionNode .arrowFunctionExpression .null params body (!(← get).isOf .blockStatement body)

/-! ### Expressions -/

def identifier (name : String) : Builder := node .identifier [("name", .text name)]

def literal (value : Value) : Builder := node .literal [("value", value)]

def thisExpression : Builder := node .thisExpression []

def arrayExpression (elements : List Value) : Builder :=
  listNode .arrayExpression [] "elements" elements []

def objectExpression (properties : List Value) : Builder :=
  listNode .objectExpression [] "properties" properties []

def property (key value : Value) : Builder :=
  node .property [("kind", .text "init"), ("key", key), ("value", value)]

def sequenceExpression (expressions : List Value) : Builder :=
  listNode .sequenceExpression [] "expressions" expressions []

/-- An operator on one operand, before it or after it. -/
def operatorOnOne (type : NodeType) (operator : String) (argument : Value) (before : Bool) : Builder :=
  node type [("operator", .text operator), ("argument", argument), ("prefix", .bool before)]

def unaryExpression (operator : String) (argument : Value) (before : Bool) : Builder :=
  operatorOnOne .unaryExpression operator argument before

def updateExpression (operator : String) (argument : Value) (before : Bool) : Builder :=
  operatorOnOne .updateExpression operator argument before

/-- An operator between two operands. -/
def operatorOnTwo (type : NodeType) (operator : String) (left right : Value) : Builder :=
  node type [("operator", .text operator), ("left", left), ("right", right)]

def binaryExpression (operator : String) (left right : Value) : Builder :=
  operatorOnTwo .binaryExpression operator left right

def logicalExpression (operator : String) (left right : Value) : Builder :=
  operatorOnTwo .logicalExpression operator left right

def assignmentExpression (operator : String) (left right : Value) : Builder :=
  operatorOnTwo .assignmentExpression operator left right

def conditionalExpression (test consequent alternate : Value) : Builder :=
  node .conditionalExpression [("test", test), ("consequent", consequent), ("alternate", alternate)]

def callExpression (callee : Value) (arguments : List Value) : Builder :=
  listNode .callExpression [("callee", callee)] "arguments" arguments []

def newExpression (callee : Value) (arguments : List Value) : Builder :=
  listNode .newExpression [("callee", callee)] "arguments" arguments []

def memberExpression (object property : Value) (computed : Bool) : Builder :=
  node .memberExpression [("object", object), ("property", property), ("computed", .bool computed)]

def spreadElement (argument : Value) : Builder := node .spreadElement [("argument", argument)]

def yieldExpression (argument : Value) (delegate : Bool) : Builder :=
  node .yieldExpression [("argument", argument), ("delegate", .bool delegate)]

/-! ### Comments -/

def commentNode (type : NodeType) (characters : String) : Builder :=
  node type [("value", .text characters), ("leading", .bool true), ("trailing", .bool false)]

def blockComment (characters : String) : Builder := commentNode .block characters

def lineComment (characters : String) : Builder := commentNode .line characters

end Build

end CodeTree
