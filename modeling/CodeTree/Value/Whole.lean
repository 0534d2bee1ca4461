/-
Values as wholes: the document that a value stands for, the value that is loaded from
a document, copies that share nothing with the value they are made from, and equality
of contents.

A value is followed through the store to a depth that no value without cycles
exceeds.
-/

import CodeTree.Json.Document
import CodeTree.Value.Store

namespace CodeTree

/-- The document of a number: a whole number below `2 ^ 53` is written as such, and what is no
finite number as null. -/
def Document.ofDouble (number : Double) : Document :=
  match number.toInt? with
  | some n => .number (.whole n)
  | none => if number.isFinite then .number (.double number) else .null

namespace Store

/-! ### Documents -/

/-- The document of a value, followed to a depth. -/
def documentTo (store : Store) : Nat → Value → Document
  | _, .null => .null
  | _, .bool truth => .bool truth
  | _, .number number => .ofDouble number
  | _, .text characters => .text characters
  | 0, .composite _ => .null
  | depth + 1, .composite id =>
    match store.composites[id]? with
    | some (.array items) => .array (items.map (documentTo store depth))
    | some (.object members) =>
      .object (members.entries.map (fun entry => (entry.1, documentTo store depth entry.2)))
    | none => .null

/-- The document of a value. -/
def document (store : Store) (value : Value) : Document := store.documentTo store.depthBound value

/-- The text of a value: its document in compact form. -/
def render (store : Store) (value : Value) : String := (store.document value).compact

mutual

/-- Loads a document into fresh composites. -/
def load : Document → StateM Store Value
  | .null => pure .null
  | .bool truth => pure (.bool truth)
  | .number numeral => pure (.number numeral.toDouble)
  | .text characters => pure (.text characters)
  | .array items => do allocateArray (← loadItems items)
  | .object members => do allocateObject (← loadMembers members)
termination_by structural document => document

def loadItems : List Document → StateM Store (List Value)
  | [] => pure []
  | item :: rest => do
    let first ← load item
    return first :: (← loadItems rest)
termination_by structural items => items

def loadMembers : List (String × Document) → StateM Store (List (String × Value))
  | [] => pure []
  | (key, item) :: rest => do
    let first ← load item
    return (key, first) :: (← loadMembers rest)
termination_by structural members => members

end

/-! ### Copies -/

/-- Copies a value into fresh composites, to a depth. -/
def copyTo : Nat → Value → StateM Store Value
  | 0, value => pure value
  | depth + 1, value => do
    match (← get).contents? value with
    | some (.array items) => allocateArray (← items.mapM (copyTo depth))
    | some (.object members) =>
      allocateObject (← members.entries.mapM (fun entry => do
        return (entry.1, ← copyTo depth entry.2)))
    | none => pure value

/-- Copies a value into fresh composites. -/
def copy (value : Value) : StateM Store Value := do copyTo (← get).depthBound value

/-! ### Equality of contents -/

/-- Whether two values have equal contents, looked at to a depth. The order of the members of an
object does not matter. -/
def equalTo (store : Store) : Nat → Value → Value → Bool
  | 0, left, right => left.same right
  | depth + 1, left, right =>
    left.same right ||
      match store.contents? left, store.contents? right with
      | some (.array items), some (.array others) =>
        items.length == others.length &&
          (items.zip others).all (fun pair => equalTo store depth pair.1 pair.2)
      | some (.object members), some (.object others) =>
        members.size == others.size &&
          members.entries.all (fun entry =>
            match others.get? entry.1 with
            | some other => equalTo store depth entry.2 other
            | none => false)
      | _, _ => false

/-- Whether two values have equal contents. -/
def equal (store : Store) (left right : Value) : Bool :=
  store.equalTo store.depthBound left right

end Store

end CodeTree
