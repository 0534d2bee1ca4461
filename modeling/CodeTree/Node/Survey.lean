/-
A survey of a tree: what the cursors have to say about every slot that holds an array or an
object, and about the root, each before the slots below it.
-/

import CodeTree.Node.Parens
import CodeTree.Node.Scope

namespace CodeTree

/-- Where a scope was established, and how deep it lies. -/
structure ScopeReport where
  kind : ScopeKind
  depth : Nat
  path? : Option (List SlotName)

/-- What a cursor has to say about its slot. A question that runs into a fault is answered by the
fault. -/
structure SlotReport where
  path : List SlotName
  type? : Option String
  needsParens : Except Fault Bool
  needsParensInExpression : Except Fault Bool
  canBeFirst : Except Fault Bool
  isFirst : Except Fault Bool
  /-- The type of the enclosing node. -/
  node? : Option String
  /-- The path of the parent node. -/
  parent? : Option (List SlotName)
  scope? : Option ScopeReport

namespace World

/-- Asks a question that cannot be refused. -/
def ask (world : World) (question : Action Bool) : Except Fault Bool × World :=
  match question world with
  | .ok answer world => (.ok answer, world)
  | .error (.fault fault) world => (.error fault, world)
  | .error _ world => (.ok false, world)

def slotReport (world : World) (c : CursorId) : SlotReport × World :=
  let (needsParens, world) := world.ask (Action.needsParens c false)
  let (needsParensInExpression, world) := world.ask (Action.needsParens c true)
  let (canBeFirst, world) := world.ask (Action.canBeFirst c)
  let (isFirst, world) := world.ask (Action.isFirst c)
  let (node, world) := world.node c
  let (parent, world) := world.parentNode c
  let (scope, world) := world.scopeAt c
  let report : SlotReport :=
    { path := world.names c
      type? := world.store.typeName? (world.value c)
      needsParens, needsParensInExpression, canBeFirst, isFirst
      node? := node.bind world.store.typeName?
      parent? := parent.map world.names
      scope? := scope.map (fun s =>
        { kind := (world.scope s).kind, depth := (world.scope s).depth
          path? := (world.scopeCursor? s).map world.names }) }
  (report, world)

/-- The names of the slots of a value that hold arrays or objects. -/
def compositeSlots (store : Store) (value : Value) : List SlotName :=
  let names : List SlotName := match store.contents? value with
    | some (.array items) => (List.range items.length).map .index
    | some (.object members) => members.keys.map .key
    | none => []
  names.filter (fun name => (store.contents? (store.slot value name)).isSome)

/-- The reports on a slot and on those below it, to a depth. -/
def surveyTo : Nat → World → CursorId → List SlotReport × World
  | 0, world, _ => ([], world)
  | depth + 1, world, c =>
    let (report, world) := world.slotReport c
    (compositeSlots world.store (world.value c)).foldl (fun (reports, world) name =>
      let (child, world) := world.child c name
      let (more, world) := surveyTo depth world child
      (reports ++ more, world)) ([report], world)

end World

/-- The survey of a document. -/
def Document.survey (document : Document) : List SlotReport :=
  let (tree, store) := (Store.load document).run .empty
  let (root, world) := { World.empty with store }.addRoot tree
  (World.surveyTo store.depthBound (world.hold root) root).1

end CodeTree
