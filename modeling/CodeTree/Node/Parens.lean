/-
Parentheses: whether the expression at a cursor has to be wrapped to read the same
where it stands. What decides is the type of the expression, the type of the node it
stands in, the slot, and, for operators, how tightly they bind.
-/

import CodeTree.Node.Position

namespace CodeTree

/-- The operators between two operands in tiers, from the loosest to the tightest. -/
def operatorTiers : List (List String) := [
  ["||"], ["&&"], ["|"], ["^"], ["&"],
  ["==", "===", "!=", "!=="],
  ["<", ">", "<=", ">=", "in", "instanceof"],
  [">>", "<<", ">>>"],
  ["+", "-"],
  ["*", "/", "%"] ]

/-- How tightly an operator binds. -/
def precedence? (operator : String) : Option Nat :=
  operatorTiers.findIdx? (fun tier => tier.contains operator)

namespace Store

/-- How tightly the operator of a node binds. -/
def operatorPrecedence? (store : Store) (node : Value) : Option Nat :=
  (store.member node "operator").text?.bind precedence?

/-- What parentheses depend on: an expression and its type, the node it stands in and that node's
type, and the name of its slot. -/
structure Site where
  node : Value
  type : NodeType
  parent : Value
  parentType : NodeType
  name? : Option SlotName

/-- Whether the expression of a site is what the parent's field of a name holds. -/
def fills (store : Store) (site : Site) (field : String) : Bool :=
  site.name? == some (.key field) && (store.member site.parent field).same site.node

/-- Whether an operator expression is torn apart by an operator around it: one that binds more
tightly, or equally so and has it on its right. -/
def yieldsTo (store : Store) (site : Site) : Bool :=
  match store.operatorPrecedence? site.parent, store.operatorPrecedence? site.node with
  | some outer, some inner => inner < outer || (inner == outer && site.name? == some (.key "right"))
  | _, _ => false

/-- What the types and slots alone decide about parentheses. Where they decide nothing, it depends
on whether the expression starts a statement. -/
def parensBySite? (store : Store) (site : Site) : Option Bool :=
  match site.type with
  | .unaryExpression | .spreadElement =>
    some (site.parentType == .memberExpression && store.fills site "object")
  | .binaryExpression | .logicalExpression =>
    some (match site.parentType with
      | .callExpression => store.fills site "callee"
      | .unaryExpression | .spreadElement => true
      | .memberExpression => store.fills site "object"
      | .binaryExpression | .logicalExpression => store.yieldsTo site
      | _ => false)
  | .sequenceExpression =>
    some (match site.parentType with
      | .forStatement => false
      | .expressionStatement => site.name? != some (.key "expression")
      | _ => true)
  | .yieldExpression =>
    some (match site.parentType with
      | .binaryExpression | .logicalExpression | .unaryExpression | .spreadElement
      | .callExpression | .memberExpression | .newExpression | .conditionalExpression
      | .yieldExpression => true
      | _ => false)
  | .literal =>
    some (site.parentType == .memberExpression && (store.member site.node "value").isNumber &&
      store.fills site "object")
  | .assignmentExpression | .conditionalExpression =>
    some (match site.parentType with
      | .unaryExpression | .spreadElement | .binaryExpression | .logicalExpression => true
      | .callExpression => store.fills site "callee"
      | .conditionalExpression => store.fills site "test"
      | .memberExpression => store.fills site "object"
      | _ => false)
  | _ =>
    if site.parentType == .newExpression && store.fills site "callee" then
      some (store.containsCall site.node)
    else none

end Store

namespace World

/-- The site of an expression that may need parentheses. An identifier never does, and neither
does what stands in no node. -/
def site? (world : World) (c : CursorId) : Option Store.Site := do
  let node := world.value c
  guard (world.store.isExpression node)
  let type ← world.store.type? node
  guard (type != .identifier)
  let parent ← (world.chain c).tail.find? world.isNodeAt
  let parentType ← world.store.type? (world.value parent)
  return { node, type, parent := world.value parent, parentType, name? := world.name? c }

end World

namespace Action

/-- Whether the expression at a cursor has to be wrapped in parentheses. If it is known to stand
in an expression, the start of a statement is not considered. -/
def needsParens (c : CursorId) (inExpression : Bool) : Action Bool := do
  let world ← get
  match world.site? c with
  | none => return false
  | some site =>
    match world.store.parensBySite? site with
    | some answer => return answer
    | none =>
      if inExpression then return false
      else if ← canBeFirst c then return false
      else isFirst c

end Action

end CodeTree
