/-
Pruning all nodes of a type. The nodes are pruned one at a time, each found by a visit
of its own that stops at the first match, so that no cursor is used after a change that
could have cut it off. The root is never a match.
-/

import CodeTree.Command.Stats
import CodeTree.Node.Prune

namespace CodeTree

namespace PruneAll

/-- Stops at the first match below the root, and notes it. The root's container is the outermost
cursor. -/
def behaviour : Behaviour Unit (Option CursorId) where
  handle calls v _ c := do
    let world := (← Handling.session).world
    if ((world.parent? c).bind world.parent?).isSome then
      Handling.onSession (modify (fun session => { session with state := some c }))
      Handling.abort v
    else
      let _ ← Handling.traverse calls v c
      return .traversed
  reset _ _ _ := pure ()

/-- Prunes match after match and gives their number. -/
def rounds (root : CursorId) : Nat → Nat → VisitAction Unit (Option CursorId) Nat
  | 0, _ => throw .outOfTurns
  | more + 1, pruned => do
    let turns := (← get).world.visitTurns
    let _ ← (Visitor.calls behaviour turns).start 0 (.cursor root) []
    match (← get).state with
    | none => return pruned
    | some target =>
      modify (fun session => { session with state := none })
      let _ ← VisitAction.onWorld (Action.prune target)
      rounds root more (pruned + 1)

/-- A tree never takes more rounds than this: each prunes a typed object, of which mending an `if`
adds at most two. -/
def roundBound (world : World) : Nat := 3 * world.store.composites.size + 1

/-- Prunes all matches below a tree and gives their number and what became of the tree. -/
def visit (tree : Value) : VisitAction Unit (Option CursorId) (Nat × Document) := do
  let root ← HasWorld.updateWorld (fun world =>
    let (root, world) := world.addHeldBy tree
    (root, world.hold root))
  let pruned ← rounds root (roundBound (← get).world) 0
  let world := (← get).world
  return (pruned, world.store.document (world.value root))

/-- Prunes all nodes of a type from a document, and counts them. -/
def ofDocument (type : NodeType) (document : Document) :
    Except (Halt VisitError) (Nat × Document) :=
  let (tree, session) := Session.ofDocument type () none document
  match visit tree session with
  | .ok result _ => .ok result
  | .error halt _ => .error halt

end PruneAll

end CodeTree
