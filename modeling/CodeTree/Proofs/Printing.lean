/-
Expressions in print. An expression is printed as a list of tokens, and an expression that stands
in another is wrapped in parentheses exactly if its cursor says that it needs them. Whether it
does depends only on its own form and on the place where it stands, so that the tokens can be
told from the expression alone.
-/

import CodeTree.Node.Parens
import CodeTree.Proofs.Loading

namespace CodeTree

/-- An expression of names, operators, properties and calls. -/
inductive Expression where
  | identifier (name : String)
  /-- An operator before its argument. -/
  | unary (operator : String) (argument : Expression)
  /-- An operator that writes back to its argument, before it or after it. -/
  | update (operator : String) (before : Bool) (argument : Expression)
  /-- An operator between two operands. -/
  | binary (operator : String) (left right : Expression)
  | conditional (test consequent alternate : Expression)
  | assignment (operator name : String) (value : Expression)
  | member (object : Expression) (name : String)
  | call (callee : Expression) (arguments : List Expression)
  | sequence (elements : List Expression)

/-- A piece of printed text. -/
inductive Token where
  | name (characters : String)
  | operator (characters : String)
  | opening
  | closing
  | dot
  | comma
  | question
  | colon
deriving DecidableEq

namespace Expression

open Document (nodeOf nameOf)

/-! ### Expressions as documents -/

/-- The type of the nodes of an operator between two operands. -/
def operatorType (operator : String) : NodeType :=
  if operator = "||" ∨ operator = "&&" then .logicalExpression else .binaryExpression

def type : Expression → NodeType
  | identifier _ => .identifier
  | unary _ _ => .unaryExpression
  | update _ _ _ => .updateExpression
  | binary operator _ _ => operatorType operator
  | conditional _ _ _ => .conditionalExpression
  | assignment _ _ _ => .assignmentExpression
  | member _ _ => .memberExpression
  | call _ _ => .callExpression
  | sequence _ => .sequenceExpression

mutual

/-- The document of an expression. -/
def document : Expression → Document
  | identifier name => nameOf name
  | unary operator argument =>
    nodeOf .unaryExpression
      [("operator", .text operator), ("argument", document argument), ("prefix", .bool true)]
  | update operator before argument =>
    nodeOf .updateExpression
      [("operator", .text operator), ("argument", document argument), ("prefix", .bool before)]
  | binary operator left right =>
    nodeOf (operatorType operator)
      [("operator", .text operator), ("left", document left), ("right", document right)]
  | conditional test consequent alternate =>
    nodeOf .conditionalExpression [("test", document test),
      ("consequent", document consequent), ("alternate", document alternate)]
  | assignment operator name value =>
    nodeOf .assignmentExpression
      [("operator", .text operator), ("left", nameOf name), ("right", document value)]
  | member object name =>
    nodeOf .memberExpression
      [("object", document object), ("property", nameOf name), ("computed", .bool false)]
  | call callee arguments =>
    nodeOf .callExpression
      [("callee", document callee), ("arguments", .array (documents arguments))]
  | sequence elements => nodeOf .sequenceExpression [("expressions", .array (documents elements))]
termination_by structural expression => expression

def documents : List Expression → List Document
  | [] => []
  | first :: rest => document first :: documents rest
termination_by structural expressions => expressions

end

/-- The program of one statement, which is an expression. -/
def program (expression : Expression) : Document :=
  nodeOf .program
    [("body", .array [nodeOf .expressionStatement [("expression", expression.document)]])]

/-! ### Printing along cursors -/

/-- Lists of tokens with commas between them. -/
def listed : List (List Token) → List Token
  | [] => []
  | [last] => last
  | first :: rest => first ++ .comma :: listed rest

def parenthesized (tokens : List Token) : List Token := .opening :: tokens ++ [.closing]

/-- Prints what stands in a slot, in parentheses if the cursor of the slot needs them. -/
def printIn (c : CursorId) (name : SlotName) (print : CursorId → Action (List Token)) :
    Action (List Token) := do
  let child ← Action.ofState (·.child c name)
  let tokens ← print child
  if ← Action.needsParens child false then return parenthesized tokens
  return tokens

mutual

/-- Prints the expression at a cursor. -/
def print : Expression → CursorId → Action (List Token)
  | identifier name, _ => return [.name name]
  | unary operator argument, c =>
    return .operator operator :: (← printIn c (.key "argument") (print argument))
  | update operator before argument, c => do
    let tokens ← printIn c (.key "argument") (print argument)
    return if before then .operator operator :: tokens else tokens ++ [.operator operator]
  | binary operator left right, c => do
    let first ← printIn c (.key "left") (print left)
    return first ++ .operator operator :: (← printIn c (.key "right") (print right))
  | conditional test consequent alternate, c => do
    let asked ← printIn c (.key "test") (print test)
    let first ← printIn c (.key "consequent") (print consequent)
    return asked ++ .question :: first ++
      .colon :: (← printIn c (.key "alternate") (print alternate))
  | assignment operator name value, c =>
    return .name name :: .operator operator :: (← printIn c (.key "right") (print value))
  | member object name, c =>
    return (← printIn c (.key "object") (print object)) ++ [.dot, .name name]
  | call callee arguments, c => do
    let called ← printIn c (.key "callee") (print callee)
    let list ← Action.ofState (·.child c (.key "arguments"))
    return called ++ parenthesized (listed (← printFrom 0 arguments list))
  | sequence elements, c => do
    let list ← Action.ofState (·.child c (.key "expressions"))
    return listed (← printFrom 0 elements list)
termination_by structural expression => expression

/-- Prints the expressions of a list, from a position on. -/
def printFrom (position : Nat) : List Expression → CursorId → Action (List (List Token))
  | [], _ => return []
  | first :: rest, list => do
    let tokens ← printIn list (.index position) (print first)
    return tokens :: (← printFrom (position + 1) rest list)
termination_by structural expressions => expressions

end

/-- Prints the statement of a program of one statement, which is an expression. -/
def printStatement (expression : Expression) (program : CursorId) : Action (List Token) := do
  let body ← Action.ofState (·.child program (.key "body"))
  let statement ← Action.ofState (·.child body (.index 0))
  printIn statement (.key "expression") expression.print

/-- The tokens of an expression that is a statement of its own. -/
def printed (expression : Expression) : Option (List Token) :=
  let (value, store) := (Store.load expression.program).run .empty
  let (root, world) := { World.empty with store }.addRoot value
  match expression.printStatement root (world.hold root) with
  | .ok tokens _ => some tokens
  | .error _ _ => none

/-! ### Parentheses -/

end Expression

/-- Where an expression stands in what encloses it. -/
inductive Place where
  | statement
  /-- The argument of an operator before it. -/
  | argument
  /-- What an operator writes back to. -/
  | operand
  | left (operator : String)
  | right (operator : String)
  | test
  | consequent
  | alternate
  /-- What is assigned. -/
  | assigned
  | object
  | callee
  /-- An argument of a call. -/
  | passed
  /-- An element of a sequence. -/
  | element

namespace Place

/-- Whether an operator between two operands gives way to one around it: to one that binds more
tightly, or equally so and has it on its right. -/
def gives (outer inner : String) (onRight : Bool) : Bool :=
  match precedence? outer, precedence? inner with
  | some outer, some inner => inner < outer || (inner == outer && onRight)
  | _, _ => false

/-- Whether an expression is wrapped at a place. -/
def wraps (place : Place) : Expression → Bool
  | .unary _ _ =>
    match place with
    | object => true
    | _ => false
  | .binary inner _ _ =>
    match place with
    | argument | object | callee => true
    | left outer => gives outer inner false
    | right outer => gives outer inner true
    | _ => false
  | .conditional _ _ _ | .assignment _ _ _ =>
    match place with
    | argument | left _ | right _ | test | object | callee => true
    | _ => false
  | .sequence _ =>
    match place with
    | statement => false
    | _ => true
  | _ => false

end Place

namespace Expression

/-- The tokens of an expression at a place, given those of the expression alone. -/
def placed (place : Place) (expression : Expression) (tokens : List Token) : List Token :=
  if place.wraps expression then parenthesized tokens else tokens

mutual

/-- The tokens of an expression. -/
def tokens : Expression → List Token
  | identifier name => [.name name]
  | unary operator argument => .operator operator :: placed .argument argument (tokens argument)
  | update operator before argument =>
    if before then .operator operator :: placed .operand argument (tokens argument)
    else placed .operand argument (tokens argument) ++ [.operator operator]
  | binary operator left right =>
    placed (.left operator) left (tokens left) ++
      .operator operator :: placed (.right operator) right (tokens right)
  | conditional test consequent alternate =>
    placed .test test (tokens test) ++ .question :: placed .consequent consequent
      (tokens consequent) ++ .colon :: placed .alternate alternate (tokens alternate)
  | assignment operator name value =>
    .name name :: .operator operator :: placed .assigned value (tokens value)
  | member object name => placed .object object (tokens object) ++ [.dot, .name name]
  | call callee arguments =>
    placed .callee callee (tokens callee) ++ parenthesized (listed (tokensOf .passed arguments))
  | sequence elements => listed (tokensOf .element elements)
termination_by structural expression => expression

def tokensOf (place : Place) : List Expression → List (List Token)
  | [] => []
  | first :: rest => placed place first (tokens first) :: tokensOf place rest
termination_by structural expressions => expressions

end

theorem parenthesized_append (tokens rest : List Token) :
    parenthesized tokens ++ rest = .opening :: (tokens ++ .closing :: rest) := by
  simp [parenthesized]

theorem listed_tokensOf (place : Place) (first second : Expression) (others : List Expression)
    (rest : List Token) :
    listed (tokensOf place (first :: second :: others)) ++ rest =
      placed place first first.tokens ++
        .comma :: (listed (tokensOf place (second :: others)) ++ rest) := by
  rw [tokensOf, tokensOf, listed, List.append_assoc, List.cons_append, ← tokensOf]
  exact List.cons_ne_nil _ _

end Expression

end CodeTree
