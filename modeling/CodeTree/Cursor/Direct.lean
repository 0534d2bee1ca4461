/-
Writing to composites directly, without a cursor. Cursors do not notice such a write; they
find out when they are next used.
-/

import CodeTree.Cursor.Outcome

namespace CodeTree

namespace Action

/-- Runs an action on the store alone. -/
def onStore {α : Type} (run : StateM Store α) : Action α :=
  ofState (fun world =>
    let (result, store) := run.run world.store
    (result, { world with store }))

def modifyStore (change : Store → Store) : Action Unit :=
  modify (fun world => { world with store := change world.store })

/-- The elements of an array; other values have none. -/
def itemsOf (array : Value) : Action (List Value) := do
  return ((← get).store.items? array).getD []

/-- Overwrites an element, which has to be there. -/
def setItem (array : Value) (index : Nat) (item : Value) : Action Unit := do
  let items ← itemsOf array
  insist (index < items.length) (.itemBounds items.length index)
  modifyStore (·.modifyItems array (·.set index item))

/-- Inserts an element before an index, which may be the length. -/
def insertItem (array : Value) (index : Nat) (item : Value) : Action Unit := do
  let items ← itemsOf array
  insist (index ≤ items.length) (.insertBounds items.length index)
  modifyStore (·.modifyItems array (fun items => items.take index ++ item :: items.drop index))

/-- Removes an element, which has to be there, and gives it back. -/
def removeItem (array : Value) (index : Nat) : Action Value := do
  let items ← itemsOf array
  insist (index < items.length) (.removeBounds items.length index)
  modifyStore (·.modifyItems array (·.eraseIdx index))
  return items[index]?.getD .null

/-- Writes a member and gives what was under the key before. -/
def setMember (object : Value) (key : String) (member : Value) : Action (Option Value) := do
  let before := ((← get).store.members? object).bind (·.get? key)
  modifyStore (·.setMember object key member)
  return before

/-- Removes a member and gives what was under the key. -/
def eraseMember (object : Value) (key : String) : Action (Option Value) := do
  let before := ((← get).store.members? object).bind (·.get? key)
  modifyStore (·.eraseMember object key)
  return before

end Action

end CodeTree
