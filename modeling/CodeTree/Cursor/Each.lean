/-
Going through the elements of an array. All element cursors are found and held before the
first has its turn, so that edits made on the way change neither which elements have a
turn nor in which order. After its turn an element is let go.

The turns may act on any state that has a world in it.
-/

import CodeTree.Cursor.Outcome

namespace CodeTree

/-- States with a world in them. -/
class HasWorld (σ : Type) where
  world : σ → World
  setWorld : σ → World → σ

instance : HasWorld World := ⟨id, fun _ world => world⟩

namespace HasWorld

variable {σ ε α : Type} [HasWorld σ]

def modifyWorld (state : σ) (change : World → World) : σ := setWorld state (change (world state))

/-- Changes the world in the state. -/
def updateWorld (change : World → α × World) : EStateM ε σ α := fun state =>
  let before := world state
  let state := setWorld state .empty
  let (result, after) := change before
  .ok result (setWorld state after)

/-- Runs an action and tidies up after it, whichever way it ends. -/
def ensuring (action : EStateM ε σ α) (tidy : World → World) : EStateM ε σ α := fun state =>
  match action state with
  | .ok result state => .ok result (modifyWorld state tidy)
  | .error cause state => .error cause (modifyWorld state tidy)

/-- Gives each of the held cursors its turn and lets go of it. The first failure ends the turns. -/
def turns (visit : CursorId → EStateM ε σ Unit) : List CursorId → EStateM ε σ Unit
  | [] => pure ()
  | c :: rest => fun state =>
    match visit c state with
    | .ok _ state => turns visit rest (modifyWorld state (·.release c))
    | .error cause state => .error cause (modifyWorld state (·.releaseAll (c :: rest)))

/-- Gives each element of the array at a cursor its turn. -/
def each (c : CursorId) (visit : CursorId → EStateM ε σ Unit) : EStateM ε σ Unit := do
  let elements ← updateWorld (fun world =>
    let (elements, world) := world.elements c
    (elements, world.holdAll elements))
  turns visit elements

end HasWorld

end CodeTree
