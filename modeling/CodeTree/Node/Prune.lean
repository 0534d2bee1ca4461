/-
Pruning: removing a node together with what its removal leaves without a meaning. A
declaration without declarators and a statement without an expression are pruned in
turn. An `if` without its first branch is turned around if it has another branch, and is
reduced to its test if it has none.
-/

import CodeTree.Build
import CodeTree.Cursor.Direct
import CodeTree.Node.Views

namespace CodeTree

namespace Action

/-- Mends an `if` statement whose first branch may be gone. -/
def mendIf (c : CursorId) : Action Unit := do
  let world ← get
  let node := world.value c
  let test := world.store.member node "test"
  let alternate := world.store.member node "alternate"
  if (world.store.member node "consequent").isNull then
    if alternate.isNull then
      let _ ← replaceWith c (← onStore (Build.expressionStatement test))
    else
      let negated ←
        if world.store.isOf .unaryExpression test &&
            (world.store.member test "operator").text? == some "!" then
          pure (world.store.member test "argument")
        else onStore (Build.unaryExpression "!" test true)
      let _ ← replaceWith (← ofState (·.child c (.key "test"))) negated
      let _ ← replaceWith (← ofState (·.child c (.key "consequent"))) alternate
      remove (← ofState (·.child c (.key "alternate")))

/-- Whether a node has lost what gave it a meaning, and goes as well. -/
def isHollow (store : Store) (node : Value) : Bool :=
  if store.isOf .variableDeclaration node then
    ((store.items? (store.member node "declarations")).getD []).isEmpty
  else store.isOf .expressionStatement node && (store.member node "expression").isNull

/-- Removes a node and tidies up after it. Gives the cursor of the nearest ancestor node that
remains. -/
def prune (c : CursorId) : Action (Option CursorId) := do
  let remaining ← ofState (·.parentNode c)
  let _ ← replace c []
  match remaining with
  | none => return none
  | some parent =>
    let world ← get
    let node := world.value parent
    if isHollow world.store node then
      if parent < c then prune parent else return some parent
    else
      if world.store.isOf .ifStatement node then mendIf parent
      return some parent
termination_by c

end Action

end CodeTree
