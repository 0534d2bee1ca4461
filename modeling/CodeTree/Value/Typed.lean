/-
Typed values. An object whose `type` member names a type of the vocabulary is a value
of that type, and its declared fields are the slots that a walk goes through.
-/

import CodeTree.Schema.Field
import CodeTree.Value.Whole

namespace CodeTree

/-- The only way in which the fields of a value can be unknown. -/
structure UnknownType where
  /-- What stands where a type name is expected. -/
  shown : String
deriving DecidableEq

def UnknownType.message (error : UnknownType) : String :=
  s!"did not recognize object of type {error.shown}"

/-- The type of a name, or the complaint that there is none. -/
def NodeType.parse (name : String) : Except UnknownType NodeType :=
  match NodeType.ofName? name with
  | some type => .ok type
  | none => .error ⟨name⟩

namespace FieldDefault

/-- The value of a default. An empty array is a fresh one each time. -/
def toValue : FieldDefault → StateM Store Value
  | null => pure .null
  | bool truth => pure (.bool truth)
  | emptyArray => Store.allocateArray []
  | text characters => pure (.text characters)

end FieldDefault

namespace Store

/-- The text under `type`, of an object. -/
def typeName? (store : Store) (value : Value) : Option String := (store.member value "type").text?

/-- The type of a typed value. -/
def type? (store : Store) (value : Value) : Option NodeType :=
  (store.typeName? value).bind NodeType.ofName?

/-- Whether a value is of a type or of one that derives from it. -/
def isOf (store : Store) (type : NodeType) (value : Value) : Bool :=
  (store.type? value).any (fun own => own.isSubtypeOf type)

/-- Whether a value is a node. Comments are typed values, but no nodes. -/
def isNode (store : Store) (value : Value) : Bool := store.isOf .node value

def isExpression (store : Store) (value : Value) : Bool := store.isOf .expression value

def isStatement (store : Store) (value : Value) : Bool := store.isOf .statement value

/-- The names of the slots to walk through: the declared fields of a typed object, the keys of a
plain record. An object whose `type` names no type is refused. -/
def fieldNames (store : Store) (value : Value) : Except UnknownType (List String) :=
  match store.members? value with
  | none => .ok []
  | some members =>
    match store.type? value with
    | some type => .ok type.fieldNames
    | none =>
      match members.get? "type" with
      | some other => .error ⟨store.render other⟩
      | none => .ok members.keys

/-- The default of a field of a typed value. -/
def fieldDefault? (store : Store) (value : Value) (name : String) : Option FieldDefault := do
  (← (← store.type? value).field? name).default?

/-- What a field holds, its default standing for it where it is missing. -/
def fieldValue (value : Value) (name : String) : StateM Store Value := do
  let store ← get
  if store.hasMember value name then return store.member value name
  match store.fieldDefault? value name with
  | some default => default.toValue
  | none => return .null

/-- Whether a call expression stands in a value, followed to a depth: it is one, or an element or
a declared field holds one. A missing field holds its default. -/
def containsCallTo : Store → Nat → Value → Bool
  | store, 0, value => store.isOf .callExpression value
  | store, depth + 1, value =>
    store.isOf .callExpression value ||
      match store.contents? value with
      | some (.array items) => items.any (containsCallTo store depth)
      | some (.object _) =>
        store.isNode value &&
          ((store.type? value).any (fun type => type.fieldNames.any (fun name =>
            let (held, filled) := (fieldValue value name).run store
            containsCallTo filled depth held)))
      | none => false

/-- Whether a call expression stands anywhere in a value. -/
def containsCall (store : Store) (value : Value) : Bool :=
  store.containsCallTo store.depthBound value

end Store

end CodeTree
