/-
Editing arrays through cursors. An edit writes to the array and then moves the kept
cursors of the elements behind the place of the edit to their new indices, so that a
cursor follows its element. The kept cursor of the length is dropped.
-/

import CodeTree.Cursor.Outcome

namespace CodeTree

namespace World

/-! ### Kept children -/

def keep (world : World) (c : CursorId) (name : SlotName) (child : CursorId) : World :=
  world.modifyCursor c (fun cursor => { cursor with children := cursor.children.insert name child })

def forget (world : World) (c : CursorId) (name : SlotName) : World :=
  world.modifyCursor c (fun cursor => { cursor with children := cursor.children.erase name })

/-- Forgets the child of a name only if it is the given one. -/
def forgetOnly (world : World) (c : CursorId) (name : SlotName) (child : CursorId) : World :=
  if (world.cursor c).children.get? name = some child then world.forget c name else world

def forgetAll (world : World) (c : CursorId) : World :=
  world.modifyCursor c (fun cursor => { cursor with children := .empty })

def setValue (world : World) (c : CursorId) (value : Value) : World :=
  world.modifyCursor c (fun cursor => { cursor with value })

def rename (world : World) (c : CursorId) (name : SlotName) : World :=
  world.modifyCursor c (fun cursor => { cursor with name? := some name })

end World

/-- Indices are numbers of 64 bits. -/
def indexBound : Nat := Nat.pow 2 64

namespace Cursor

/-- The kept cursors of elements from an index on, with their indices. -/
def elementsFrom (cursor : Cursor) (start : Nat) : List (Nat × CursorId) :=
  cursor.children.entries.filterMap (fun entry =>
    match entry.1 with
    | .index position => if start ≤ position then some (position, entry.2) else none
    | .key _ => none)

end Cursor

namespace Action

/-- Moves one kept cursor to a new index. -/
def moveElement (c : CursorId) (offset : Int) (element : Nat × CursorId) : Action Unit := do
  insist ((← get).name? element.2 == some (.index element.1)) .keptUnderOtherName
  let target : Int := element.1 + offset
  insist (0 ≤ target && target < indexBound) .indexRange
  let name : SlotName := .index target.toNat
  modify (fun world => (world.rename element.2 name).keep c name element.2)

/-- Moves the kept cursors of the elements from an index on by an offset, and drops the kept
length. -/
def moveElements (c : CursorId) (start : Nat) (offset : Int) : Action Unit := do
  modify (fun world => world.forget c .length)
  if offset ≠ 0 then
    let moved := ((← get).cursor c).elementsFrom start
    modify (fun world => moved.foldl (fun world element => world.forget c (.index element.1)) world)
    moved.forM (moveElement c offset)

/-- The elements of the array at a cursor. -/
def arrayAt (c : CursorId) : Action (List Value) := do
  let world ← get
  match world.store.items? (world.value c) with
  | some items => pure items
  | none => refuse (.notAnArray (world.shownName c))

/-- Writes the elements of the array at a cursor. -/
def setItems (c : CursorId) (items : List Value) : Action Unit :=
  modify (fun world =>
    { world with store := world.store.modifyItems (world.value c) (fun _ => items) })

/-! ### Edits of the array at a cursor -/

/-- Removes the first element and gives it back. -/
def shift (c : CursorId) : Action (Option Value) := do
  match ← arrayAt c with
  | [] =>
    modify (fun world => world.forget c .length)
    return none
  | first :: rest =>
    setItems c rest
    modify (fun world => world.forget c (.index 0))
    moveElements c 1 (-1)
    return some first

/-- Puts values in front and gives the new length. -/
def unshift (c : CursorId) (values : List Value) : Action Nat := do
  let items ← arrayAt c
  setItems c (values ++ items)
  moveElements c 0 values.length
  return values.length + items.length

/-- Appends values and gives the new length. -/
def push (c : CursorId) (values : List Value) : Action Nat := do
  let items ← arrayAt c
  setItems c (items ++ values)
  modify (fun world => world.forget c .length)
  return items.length + values.length

/-- Removes the last element and gives it back. -/
def pop (c : CursorId) : Action (Option Value) := do
  let items ← arrayAt c
  setItems c items.dropLast
  if !items.isEmpty then modify (fun world => world.forget c (.index (items.length - 1)))
  modify (fun world => world.forget c .length)
  return items.getLast?

/-- Inserts values before an index, which counts as the length where it exceeds it. -/
def insertAt (c : CursorId) (index : Nat) (values : List Value) : Action Unit := do
  let items ← arrayAt c
  if !values.isEmpty then
    let place := min index items.length
    setItems c (items.take place ++ values ++ items.drop place)
    moveElements c place values.length

/-! ### Edits beside an element -/

/-- The container of an element and the element's index. -/
def placeInArray (c : CursorId) : Action (CursorId × Nat) := do
  let world ← get
  let some parent := world.parent? c | refuse .noParent
  let some index := (world.name? c).bind SlotName.index?
    | refuse (.notAnElement (world.shownName c))
  return (parent, index)

/-- Inserts values just before an element. -/
def insertBefore (c : CursorId) (values : List Value) : Action Unit := do
  let (parent, index) ← placeInArray c
  insertAt parent index values

/-- Inserts values just after an element. -/
def insertAfter (c : CursorId) (values : List Value) : Action Unit := do
  let (parent, index) ← placeInArray c
  insist (index + 1 < indexBound) .additionRange
  insertAt parent (index + 1) values

end Action

end CodeTree
