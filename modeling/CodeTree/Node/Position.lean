/-
Position within a statement: whether the text of a node would start the statement it
stands in, and whether it may.
-/

import CodeTree.Node.Views

namespace CodeTree

namespace Action

/-- Whether a node may stand at the start of a statement. A function expression would be taken for a
declaration there, an object for a block. -/
def canBeFirst (c : CursorId) : Action Bool := do
  match ← ofState (·.node c) with
  | none => return true
  | some node =>
    let store := (← get).store
    return !(store.isOf .functionExpression node || store.isOf .objectExpression node)

end Action

/-- How a node stands below its parent node: its slot's name, and the name of the slot of the
container it stands in. -/
structure Placement where
  name? : Option SlotName
  container? : Option SlotName
deriving DecidableEq

namespace Placement

/-- Whether a node stands in the field of a name. -/
def isField (placement : Placement) (field : String) : Bool :=
  placement.name? == some (.key field)

/-- Whether a node is the first element of the list in the field of a name. -/
def isFirstOf (placement : Placement) (field : String) : Bool :=
  placement.container? == some (.key field) && placement.name? == some (.index 0)

end Placement

namespace Store

/-- Whether the text of a parent node starts with the text of the child at a placement. -/
def leads (store : Store) (parent : Value) (placement : Placement) : Bool :=
  (store.isOf .sequenceExpression parent && placement.isFirstOf "expressions") ||
  (store.isOf .callExpression parent && placement.isField "callee") ||
  (store.isOf .memberExpression parent && placement.isField "object") ||
  (store.isOf .conditionalExpression parent && placement.isField "test") ||
  ((store.isOf .binaryExpression parent || store.isOf .logicalExpression parent) &&
    placement.isField "left") ||
  ((store.isOf .unaryExpression parent || store.isOf .updateExpression parent) &&
    (store.member parent "prefix").bool? == some false && placement.isField "argument")

end Store

namespace World

def placement (world : World) (c : CursorId) : Placement :=
  ⟨world.name? c, (world.parent? c).bind world.name?⟩

end World

namespace Action

/-- Whether the text of a node would start its statement: along the parents, every node leads its
parent until the statement is reached. -/
def isFirst (c : CursorId) : Action Bool := do
  match ← ofState (·.parentNode c) with
  | none => return true
  | some parent =>
    let world ← get
    let node := world.value c
    let parentNode := world.value parent
    let placement := world.placement c
    if world.store.isOf .blockStatement parentNode && placement.isFirstOf "body" then
      insist ((world.store.item (world.store.member parentNode "body") 0).same node) .blockSlot
      return true
    else if world.store.isOf .expressionStatement parentNode && placement.isField "expression" then
      insist ((world.store.member parentNode "expression").same node) .statementSlot
      return true
    else if world.store.leads parentNode placement then
      if parent < c then isFirst parent else return true
    else return false
termination_by c

end Action

end CodeTree
