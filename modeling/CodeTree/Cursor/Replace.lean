/-
Replacing what stands in a cursor's slot: by nothing, which removes the slot, by one
value, or, in an array, by several. Before it writes, the cursor makes sure that it
still stands where it thinks: when its element has moved, it is looked for by identity,
and when its key is gone, it is put back.
-/

import CodeTree.Cursor.Edit

namespace CodeTree

namespace Action

/-- Brings a cursor and its parent into step, and insists that they are. -/
def repair (c parent : CursorId) : Action Unit := do
  let world ← get
  let some name := world.name? c | return
  let container := world.value parent
  let value := world.value c
  if (world.store.slot container name).same value then
    modify (fun world => world.keep parent name c)
  else
    match world.store.contents? container with
    | some (.array items) =>
      match Store.position? items value with
      | some i =>
        modify (fun world =>
          ((world.forgetOnly parent name c).rename c (.index i)).keep parent (.index i) c)
      | none => pure ()
    | some (.object _) =>
      modify (fun world =>
        { world with store := world.store.setMember container name.text value }.keep parent name c)
    | none => pure ()
  let world ← get
  let name := (world.name? c).getD name
  insist ((world.store.slot container name).same value) .outOfStep
  insist ((← ofState (·.child parent name)) == c) .unresolved

/-- Replaces an element of an array of the given elements. -/
def replaceElement (c parent : CursorId) (name : SlotName) (items values : List Value) :
    Action (List CursorId) := do
  let .index index := name | refuse (.notAnElement name.text)
  insist (index < items.length) .removed
  let spliced := items.take index ++ values ++ items.drop (index + 1)
  setItems parent spliced
  insist ((items[index]?.getD .null).same ((← get).value c)) .splicedOther
  insist (spliced.length + 1 == items.length + values.length) .spliceLength
  match values with
  | [] =>
    modify (fun world => world.forget parent (.index index))
    moveElements parent (index + 1) (-1)
    modify (fun world => (world.setValue c .null).forgetAll c)
    return []
  | first :: _ =>
    moveElements parent (index + 1) ((values.length : Int) - 1)
    insist ((spliced[index]?.getD .null).same first) .notReplaced
    if !((← get).value c).same first then
      modify (fun world => (world.setValue c first).forgetAll c)
    let results ← ofState (·.childrenAt parent ((List.range' index values.length).map .index))
    insist (results.head? == some c) .firstIsOther
    return results

/-- Replaces the value under a key of an object. -/
def replaceMember (c parent : CursorId) (name : SlotName) (values : List Value) :
    Action (List CursorId) := do
  let container := (← get).value parent
  match values with
  | [] =>
    modify (fun world =>
      let world := { world with store := world.store.eraseMember container name.text }
      ((world.forget parent name).setValue c .null).forgetAll c)
    return []
  | [value] =>
    modify (fun world =>
      let world := if (world.value c).same value then world else world.forgetAll c
      let world := { world with store := world.store.setMember container name.text value }
      world.setValue c value)
    return [c]
  | _ => refuse (.tooManyForKey name.text values.length)

/-- Replaces what stands in a cursor's slot, and gives the cursors of the replacements. The first
is the cursor itself. Without replacements the slot is removed and the cursor is left with null.
-/
def replace (c : CursorId) (values : List Value) : Action (List CursorId) := do
  let some parent := (← get).parent? c | refuse .noParent
  modify (fun world => world.modifyCursor c (fun cursor => { cursor with views := .empty }))
  repair c parent
  let world ← get
  let some name := world.name? c | refuse .noParent
  match world.store.contents? (world.value parent) with
  | some (.array items) => replaceElement c parent name items values
  | some (.object _) => replaceMember c parent name values
  | none => refuse (.parentNotContainer (world.shownName c))

/-- Replaces what stands in a cursor's slot by one value. -/
def replaceWith (c : CursorId) (value : Value) : Action CursorId := do
  return (← replace c [value]).headD c

/-- Removes a cursor's slot. -/
def remove (c : CursorId) : Action Unit := do
  let _ ← replace c []

end Action

end CodeTree
