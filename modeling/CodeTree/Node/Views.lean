/-
What a cursor sees of the nodes around it: the node that encloses its slot, and the
cursor of the parent node. Both are remembered until the cursor's slot is replaced.
-/

import CodeTree.Cursor.Replace

namespace CodeTree

namespace World

def isNodeAt (world : World) (c : CursorId) : Bool := world.store.isNode (world.value c)

def modifyViews (world : World) (c : CursorId) (change : Views → Views) : World :=
  world.modifyCursor c (fun cursor => { cursor with views := change cursor.views })

/-! ### The enclosing node -/

/-- The first node along a chain of cursors. Every cursor passed on the way remembers the answer. -/
def nodeAlong (world : World) : List CursorId → Option Value × World
  | [] => (none, world)
  | c :: above =>
    match (world.cursor c).views.node? with
    | some remembered => (remembered, world)
    | none =>
      let (answer, world) :=
        if world.isNodeAt c then (some (world.value c), world) else world.nodeAlong above
      (answer, world.modifyViews c (fun views => { views with node? := some answer }))

/-- The node that encloses a slot: the value itself if it is a node, else the nearest node above. -/
def node (world : World) (c : CursorId) : Option Value × World := world.nodeAlong (world.chain c)

/-! ### The parent node -/

/-- The cursor of the nearest node strictly above a node. For a slot that holds no node, the
nearest node above is the slot's own, and the one above that is meant. -/
def freshParent? (world : World) (c : CursorId) : Option CursorId :=
  let above := (world.chain c).tail
  let start :=
    if world.isNodeAt c then above else (above.dropWhile (fun d => !world.isNodeAt d)).tail
  start.find? world.isNodeAt

/-- The cursor of the parent node, as remembered while it lives. -/
def parentNode (world : World) (c : CursorId) : Option CursorId × World :=
  let fresh := fun (_ : Unit) =>
    let answer := world.freshParent? c
    (answer, world.modifyViews c (fun views => { views with parent? := some answer }))
  match (world.cursor c).views.parent? with
  | some none => (none, world)
  | some (some parent) => if world.isAlive parent then (some parent, world) else fresh ()
  | none => fresh ()

end World

end CodeTree
