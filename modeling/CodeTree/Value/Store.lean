/-
Values and the store. A value is a primitive or refers to a composite, an array or an
object, by its identity. The composites live in a store and are written in place, so
that one composite can stand in several slots and a write to it shows in all of them.
-/

import CodeTree.Data.Assoc
import CodeTree.Number.Double

namespace CodeTree

/-- The identity of a composite. -/
abbrev CompositeId := Nat

/-- A tree value. -/
inductive Value where
  | null
  | bool (truth : Bool)
  | number (number : Double)
  | text (characters : String)
  | composite (id : CompositeId)
deriving DecidableEq, Inhabited

/-- The contents of an array or an object. -/
inductive Composite where
  | array (items : List Value)
  | object (members : Assoc String Value)
deriving Inhabited

/-- The composites, by identity. -/
structure Store where
  composites : Array Composite
deriving Inhabited

namespace Value

/-- The identity relation of values: one composite, or equal primitives. -/
def same : Value → Value → Bool
  | null, null => true
  | bool left, bool right => left == right
  | number left, number right => left.equals right
  | text left, text right => left == right
  | composite left, composite right => left == right
  | _, _ => false

def isNull : Value → Bool
  | null => true
  | _ => false

def bool? : Value → Option Bool
  | bool truth => some truth
  | _ => none

def isNumber : Value → Bool
  | number _ => true
  | _ => false

def text? : Value → Option String
  | text characters => some characters
  | _ => none

end Value

namespace Store

def empty : Store := ⟨#[]⟩

/-! ### Reading -/

/-- The contents of the composite that a value refers to. -/
def contents? (store : Store) : Value → Option Composite
  | .composite id => store.composites[id]?
  | _ => none

/-- The elements of an array. -/
def items? (store : Store) (value : Value) : Option (List Value) :=
  match store.contents? value with
  | some (.array items) => some items
  | _ => none

/-- The members of an object. -/
def members? (store : Store) (value : Value) : Option (Assoc String Value) :=
  match store.contents? value with
  | some (.object members) => some members
  | _ => none

/-- The member of an object under a key. What is missing reads as null. -/
def member (store : Store) (value : Value) (key : String) : Value :=
  ((store.members? value).bind (·.get? key)).getD .null

/-- The element of an array at an index. What is missing reads as null. -/
def item (store : Store) (value : Value) (index : Nat) : Value :=
  ((store.items? value).bind (·[index]?)).getD .null

/-- Whether an object has a key. -/
def hasMember (store : Store) (value : Value) (key : String) : Bool :=
  (store.members? value).any (·.contains key)

/-- The position of the first element that is the same as a value. -/
def position? (items : List Value) (value : Value) : Option Nat :=
  items.findIdx? (fun item => item.same value)

/-! ### Writing -/

/-- Adds a composite under a fresh identity. -/
def allocate (contents : Composite) : StateM Store Value :=
  fun store => (.composite store.composites.size, ⟨store.composites.push contents⟩)

def allocateArray (items : List Value) : StateM Store Value := allocate (.array items)

/-- Adds an object. A repeated key keeps its first place and takes its last value. -/
def allocateObject (members : List (String × Value)) : StateM Store Value :=
  allocate (.object (.ofList members))

/-- Changes the elements of an array in place. -/
def modifyItems (store : Store) (value : Value) (change : List Value → List Value) : Store :=
  match value with
  | .composite id =>
    ⟨store.composites.modify id (fun contents => match contents with
      | .array items => .array (change items)
      | other => other)⟩
  | _ => store

/-- Changes the members of an object in place. -/
def modifyMembers (store : Store) (value : Value)
    (change : Assoc String Value → Assoc String Value) : Store :=
  match value with
  | .composite id =>
    ⟨store.composites.modify id (fun contents => match contents with
      | .object members => .object (change members)
      | other => other)⟩
  | _ => store

/-- Writes a member of an object. -/
def setMember (store : Store) (value : Value) (key : String) (member : Value) : Store :=
  store.modifyMembers value (·.insert key member)

/-- Removes a member of an object. -/
def eraseMember (store : Store) (value : Value) (key : String) : Store :=
  store.modifyMembers value (·.erase key)

/-! ### Depth -/

/-- A bound on the nesting of any value without cycles: a chain of nested composites is no longer
than their number. -/
def depthBound (store : Store) : Nat := store.composites.size + 1

end Store

end CodeTree
