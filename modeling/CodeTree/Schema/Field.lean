/-
Declared fields. Every type declares fields of its own and inherits those of its
bases, which come first. A type that declares an inherited field again takes over its
place. Some fields have a default, which stands for the field where a node lacks it.
-/

import CodeTree.Schema.Lineage

namespace CodeTree

/-- What a missing field is taken to hold. -/
inductive FieldDefault where
  | null
  | bool (truth : Bool)
  | emptyArray
  | text (characters : String)
deriving DecidableEq

/-- A declared field. -/
structure Field where
  name : String
  default? : Option FieldDefault
deriving DecidableEq

namespace NodeType

/-- The fields that a type adds to those of its bases. -/
def ownFields : NodeType → List Field
  | node => [⟨"type", none⟩]
  | comment =>
    [⟨"value", none⟩, ⟨"leading", some (.bool true)⟩, ⟨"trailing", some (.bool false)⟩]
  | function =>
    [⟨"id", some .null⟩, ⟨"params", none⟩, ⟨"body", none⟩, ⟨"generator", some (.bool false)⟩,
      ⟨"expression", some (.bool false)⟩]
  | program | blockStatement => [⟨"body", none⟩]
  | expressionStatement => [⟨"expression", none⟩]
  | ifStatement => [⟨"test", none⟩, ⟨"consequent", none⟩, ⟨"alternate", some .null⟩]
  | labeledStatement => [⟨"label", none⟩, ⟨"body", none⟩]
  | breakStatement | continueStatement => [⟨"label", some .null⟩]
  | switchStatement => [⟨"discriminant", none⟩, ⟨"cases", none⟩, ⟨"lexical", some (.bool false)⟩]
  | switchCase => [⟨"test", none⟩, ⟨"consequent", none⟩]
  | returnStatement => [⟨"argument", some .null⟩]
  | throwStatement | spreadElement => [⟨"argument", none⟩]
  | tryStatement => [⟨"block", none⟩, ⟨"handler", some .null⟩, ⟨"finalizer", some .null⟩]
  | catchClause => [⟨"param", none⟩, ⟨"body", none⟩]
  | whileStatement => [⟨"test", none⟩, ⟨"body", none⟩]
  | doWhileStatement => [⟨"body", none⟩, ⟨"test", none⟩]
  | forStatement => [⟨"init", none⟩, ⟨"test", none⟩, ⟨"update", none⟩, ⟨"body", none⟩]
  | forInStatement => [⟨"left", none⟩, ⟨"right", none⟩, ⟨"body", none⟩]
  | functionDeclaration => [⟨"id", none⟩]
  | variableDeclaration => [⟨"kind", some (.text "var")⟩, ⟨"declarations", none⟩]
  | variableDeclarator => [⟨"id", none⟩, ⟨"init", some .null⟩]
  | identifier => [⟨"name", none⟩]
  | literal => [⟨"value", none⟩]
  | arrayExpression => [⟨"elements", none⟩]
  | objectExpression => [⟨"properties", none⟩]
  | property => [⟨"kind", some (.text "init")⟩, ⟨"key", none⟩, ⟨"value", none⟩]
  | sequenceExpression => [⟨"expressions", none⟩]
  | unaryExpression => [⟨"operator", none⟩, ⟨"argument", none⟩, ⟨"prefix", some (.bool true)⟩]
  | updateExpression => [⟨"operator", none⟩, ⟨"argument", none⟩, ⟨"prefix", none⟩]
  | binaryExpression | logicalExpression | assignmentExpression =>
    [⟨"operator", none⟩, ⟨"left", none⟩, ⟨"right", none⟩]
  | conditionalExpression => [⟨"test", none⟩, ⟨"consequent", none⟩, ⟨"alternate", none⟩]
  | callExpression => [⟨"callee", none⟩, ⟨"arguments", none⟩]
  | newExpression => [⟨"callee", none⟩, ⟨"arguments", some .emptyArray⟩]
  | memberExpression => [⟨"object", none⟩, ⟨"property", none⟩, ⟨"computed", some (.bool false)⟩]
  | yieldExpression => [⟨"argument", some .null⟩, ⟨"delegate", some (.bool false)⟩]
  | _ => []

/-- Declares a field after the given ones, or in place of the one of its name. -/
def declareField : List Field → Field → List Field
  | [], own => [own]
  | field :: rest, own =>
    if field.name = own.name then own :: rest else field :: declareField rest own

/-- Adds the fields of a type to those already collected: those of its bases, then its own. -/
def collectFields : Nat → List Field → NodeType → List Field
  | 0, collected, _ => collected
  | height + 1, collected, type =>
    type.ownFields.foldl declareField (type.bases.foldl (collectFields height) collected)

/-- All declared fields of a type, inherited ones first. -/
def fields (type : NodeType) : List Field := collectFields all.length [] type

def fieldNames (type : NodeType) : List String := type.fields.map Field.name

def field? (type : NodeType) (name : String) : Option Field :=
  type.fields.find? (fun field => field.name == name)

end NodeType

end CodeTree
