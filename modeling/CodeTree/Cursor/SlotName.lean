/-
Names of slots. A slot of an array is named by its index, a slot of an object by its
key. Arrays also show their length as a slot.
-/

import CodeTree.Value.Store

namespace CodeTree

/-- The name of a slot within its container. -/
inductive SlotName where
  | index (position : Nat)
  | key (characters : String)
deriving DecidableEq, Inhabited

namespace SlotName

def text : SlotName → String
  | index position => toString position
  | key characters => characters

def index? : SlotName → Option Nat
  | index position => some position
  | key _ => none

/-- The name under which an array shows its length. -/
def length : SlotName := key "length"

end SlotName

namespace Store

/-- What stands in a slot of a value. An index into an object names the key of the same spelling. -/
def slot (store : Store) (value : Value) (name : SlotName) : Value :=
  match store.contents? value, name with
  | some (.array items), .index position => items[position]?.getD .null
  | some (.array items), .key characters =>
    if characters = "length" then .number (.ofInt items.length) else .null
  | some (.object members), name => (members.get? name.text).getD .null
  | none, _ => .null

/-- The name that a slot goes by in a value: in an object, slots are named by keys. -/
def normalName (store : Store) (value : Value) (name : SlotName) : SlotName :=
  match store.contents? value with
  | some (.object _) => .key name.text
  | _ => name

end Store

end CodeTree
