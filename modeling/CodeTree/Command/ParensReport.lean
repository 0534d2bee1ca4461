/-
Reporting parentheses: the expressions of a tree that have to be wrapped, in the order
of the tree.
-/

import CodeTree.Command.Stats
import CodeTree.Node.Parens

namespace CodeTree

/-- An expression that has to be wrapped: the names down to it, joined by points, and the name of
its type. -/
structure ParensEntry where
  path : String
  type : String
deriving DecidableEq

/-- Names joined by points. -/
def SlotName.dotted (names : List SlotName) : String := ".".intercalate (names.map SlotName.text)

/-- The entry of the expression at a cursor. -/
def ParensEntry.ofCursor (world : World) (c : CursorId) : ParensEntry where
  path := SlotName.dotted (world.names c)
  type := (world.store.typeName? (world.value c)).getD ""

namespace ParensReport

/-- Notes each expression that needs parentheses, and walks on. -/
def behaviour (inExpression : Bool) : Behaviour Unit (List ParensEntry) where
  handle calls v _ c := do
    if ← Handling.onSession (VisitAction.onWorld (Action.needsParens c inExpression)) then
      Handling.onSession (modify (fun session =>
        { session with state := session.state ++ [ParensEntry.ofCursor session.world c] }))
    let _ ← Handling.traverse calls v c
    return .traversed
  reset _ _ _ := pure ()

/-- Visits a tree from a root cursor and gives what was noted. -/
def visit (inExpression : Bool) (tree : Value) :
    VisitAction Unit (List ParensEntry) (List ParensEntry) := do
  let root ← HasWorld.updateWorld (·.addRoot tree)
  let turns := (← get).world.visitTurns
  let _ ← (Visitor.calls (behaviour inExpression) turns).start 0 (.cursor root) []
  return (← get).state

/-- The entries of a document. -/
def ofDocument (inExpression : Bool) (document : Document) :
    Except (Halt VisitError) (List ParensEntry) :=
  let (tree, session) := Session.ofDocument .expression () [] document
  match visit inExpression tree session with
  | .ok entries _ => .ok entries
  | .error halt _ => .error halt

end ParensReport

end CodeTree
