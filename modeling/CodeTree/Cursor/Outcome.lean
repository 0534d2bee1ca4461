/-
How an action on the world can end: with a result, with an error that the caller can
handle, or with a fault, which shows that the cursors no longer fit the tree. The world
as the action left it is kept in every case.
-/

import CodeTree.Cursor.World

namespace CodeTree

/-- Why an edit was refused. -/
inductive EditError where
  | noParent
  | notAnArray (name : String)
  | notAnElement (name : String)
  | tooManyForKey (name : String) (count : Nat)
  | parentNotContainer (name : String)
deriving DecidableEq

def EditError.message : EditError → String
  | noParent => "path has no parent"
  | notAnArray name => s!"value at '{name}' is not an array"
  | notAnElement name => s!"path '{name}' is not an array element"
  | tooManyForKey name count => s!"cannot replace object key '{name}' with {count} values"
  | parentNotContainer name => s!"parent of '{name}' is neither an array nor an object"

/-- A broken promise between cursors and tree, or a request outside the bounds of an array. -/
inductive Fault where
  | outOfStep
  | unresolved
  | removed
  | splicedOther
  | spliceLength
  | keptUnderOtherName
  | indexRange
  | notReplaced
  | firstIsOther
  | blockSlot
  | statementSlot
  | noScope (text : String)
  | itemBounds (length index : Nat)
  | insertBounds (length index : Nat)
  | removeBounds (length index : Nat)
  | additionRange
deriving DecidableEq

def Fault.message : Fault → String
  | outOfStep => "path value is out of sync with its parent slot"
  | unresolved => "parent does not resolve this path's slot to this path"
  | removed => "cannot replace a removed path"
  | splicedOther => "spliced-out value is not the path's value"
  | spliceLength => "unexpected array length after splice"
  | keptUnderOtherName => "cached path name disagrees with its cache slot"
  | indexRange => "moved paths never precede the splice point"
  | notReplaced => "parent slot does not hold the replacement"
  | firstIsOther => "first replacement path is not the original path"
  | blockSlot => "block body slot does not hold the node"
  | statementSlot => "statement expression slot does not hold the node"
  | noScope text => s!"{text} does not establish a scope"
  | itemBounds length index => s!"index out of bounds: the len is {length} but the index is {index}"
  | insertBounds length index => s!"insertion index (is {index}) should be <= len (is {length})"
  | removeBounds length index => s!"removal index (is {index}) should be < len (is {length})"
  | additionRange => "attempt to add with overflow"

/-- How an action can end without a result. Running out of turns is no answer about the action. -/
inductive Halt (ε : Type) where
  | error (cause : ε)
  | fault (cause : Fault)
  | outOfTurns
deriving DecidableEq

/-- Actions on the world. -/
abbrev Action (α : Type) := EStateM (Halt EditError) World α

namespace Action

/-- An action that always succeeds. -/
def ofState {α : Type} (run : World → α × World) : Action α :=
  fun world => let (result, world) := run world; .ok result world

def refuse {α : Type} (cause : EditError) : Action α := throw (.error cause)

/-- Insists on a condition. -/
def insist (condition : Bool) (cause : Fault) : Action Unit :=
  if condition then pure () else throw (.fault cause)

end Action

end CodeTree
