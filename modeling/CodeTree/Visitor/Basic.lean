/-
Visitors. A visitor has handlers for node types; a node goes to the handler of its own
type or else of its nearest supertype that has one. What a handler is made of is left
open: a visitor stores handlers of any kind, and a behaviour says what running one
means. A behaviour may act on everything in the session, the visitors included.
-/

import CodeTree.Cursor.Each
import CodeTree.Cursor.Replace
import CodeTree.Text.Shown

namespace CodeTree

/-- The identity of a visitor. -/
abbrev VisitorId := Nat

/-- Why a visit failed. -/
inductive VisitError where
  | edit (cause : EditError)
  | reentrant
  | notTraversed (declared : String)
  | unrecognizedType (shown : String)
  | invalidHandlerName (name : String)
  /-- A handler asked to stop the visit, through the given visitor. -/
  | aborted (through : VisitorId)
  | handler (message : String)
deriving DecidableEq

def VisitError.message : VisitError → String
  | edit cause => cause.message
  | reentrant => "visit() called while a visit is in progress; use Context::visit or Context::traverse"
  | notTraversed declared => s!"handler for {declared} must either traverse or skip children"
  | unrecognizedType shown => (UnknownType.mk shown).message
  | invalidHandlerName name => s!"invalid handler name '{name}': expected visit<TypeName>"
  | aborted _ => "traversal aborted"
  | handler message => message

/-- What a handler decided about its node. -/
inductive Verdict where
  /-- The handler has had the children walked. -/
  | traversed
  | skipChildren
  /-- The node is to be replaced, and the children of the replacement walked unless the handler
  has had children walked already. -/
  | replace (value : Value)
deriving DecidableEq

/-- What one call of a handler works with: the cursor of its node, and whether the children have
still to be walked or skipped. -/
structure Context where
  current? : Option CursorId
  mustTraverse : Bool
deriving DecidableEq

/-- A context that waits to be used. -/
def Context.idle : Context := ⟨none, false⟩

/-- A visitor. `H` is what its handlers are made of. -/
structure Visitor (H : Type) where
  handlers : Assoc NodeType H
  visiting : Bool
  changeReported : Bool
  abortRequested : Bool
  /-- Contexts of earlier calls, kept for later ones. -/
  pool : List Context

namespace Visitor

variable {H : Type}

def ofHandlers (handlers : List (NodeType × H)) : Visitor H :=
  { handlers := .ofList handlers, visiting := false, changeReported := false
    abortRequested := false, pool := [] }

instance : Inhabited (Visitor H) := ⟨ofHandlers []⟩

/-- The type that a handler name of the form `visitType` is for. -/
def handlerType? (name : String) : Option NodeType :=
  match name.toList with
  | 'v' :: 'i' :: 's' :: 'i' :: 't' :: rest => NodeType.ofName? (String.ofList rest)
  | _ => none

/-- The handlers by type, given by their names. The first bad name is reported. -/
def typedHandlers : List (String × H) → Except VisitError (List (NodeType × H))
  | [] => .ok []
  | (name, handler) :: rest =>
    match handlerType? name with
    | none => .error (.invalidHandlerName name)
    | some type => (typedHandlers rest).map ((type, handler) :: ·)

/-- A visitor from handlers that are given by their names. -/
def ofNamed (handlers : List (String × H)) : Except VisitError (Visitor H) :=
  (typedHandlers handlers).map ofHandlers

/-- The declared type whose handler applies to a type. -/
def resolve? (visitor : Visitor H) (type : NodeType) : Option NodeType :=
  NodeType.nearest? visitor.handlers.keys type

/-- A visitor walks through comments only if it has a handler for some. -/
def visitsComments (visitor : Visitor H) : Bool :=
  (visitor.resolve? .block).isSome || (visitor.resolve? .line).isSome

/-- The text that describes a visitor. -/
def describe (visitor : Visitor H) : String :=
  let names := (visitor.handlers.keys.map NodeType.name).mergeSort (fun left right => left ≤ right)
  let list := ", ".intercalate (names.map Text.shown)
  s!"PathVisitor \x7b handlers: [{list}], visit_comments: {visitor.visitsComments}, " ++
    s!"visiting: {visitor.visiting} \x7d"

end Visitor

/-- A world with the visitors over it and the state that their handlers share. -/
structure Session (H σ : Type) where
  world : World
  visitors : Array (Visitor H)
  state : σ

/-- Actions of a session. -/
abbrev VisitAction (H σ α : Type) := EStateM (Halt VisitError) (Session H σ) α

namespace Session

variable {H σ : Type}

def visitor (session : Session H σ) (v : VisitorId) : Visitor H := session.visitors[v]?.getD default

def modifyVisitor (session : Session H σ) (v : VisitorId) (change : Visitor H → Visitor H) :
    Session H σ :=
  { session with visitors := session.visitors.modify v change }

instance : HasWorld (Session H σ) := ⟨world, fun session world => { session with world }⟩

def addVisitor (session : Session H σ) (visitor : Visitor H) : VisitorId × Session H σ :=
  (session.visitors.size, { session with visitors := session.visitors.push visitor })

/-- The handler for a value, with the type it is declared for. -/
def handler? (session : Session H σ) (v : VisitorId) (value : Value) : Option (NodeType × H) := do
  let type ← session.world.store.type? value
  let declared ← (session.visitor v).resolve? type
  let handler ← (session.visitor v).handlers.get? declared
  return (declared, handler)

/-- Marks that a visit is to stop. -/
def requestAbort (session : Session H σ) (v : VisitorId) : Session H σ :=
  session.modifyVisitor v (fun visitor => { visitor with abortRequested := true })

/-- Withdraws the wish that a visit stop. -/
def cancelAbort (session : Session H σ) (v : VisitorId) : Session H σ :=
  session.modifyVisitor v (fun visitor => { visitor with abortRequested := false })

def isCancelled (session : Session H σ) (v : VisitorId) : Bool := !(session.visitor v).abortRequested

/-- The text that describes the error of an abort. -/
def describeAbort (session : Session H σ) (v : VisitorId) : String :=
  s!"Aborted(AbortRequest \x7b cancelled: {session.isCancelled v} \x7d)"

def reportChange (session : Session H σ) (v : VisitorId) : Session H σ :=
  session.modifyVisitor v (fun visitor => { visitor with changeReported := true })

end Session

namespace Halt

variable {ε δ : Type}

def mapError (change : ε → δ) : Halt ε → Halt δ
  | error cause => .error (change cause)
  | fault cause => .fault cause
  | outOfTurns => .outOfTurns

end Halt

namespace VisitAction

variable {H σ α : Type}

/-- Runs an action on the world of the session. -/
def onWorld (action : Action α) : VisitAction H σ α := fun session =>
  let world := session.world
  let session := { session with world := .empty }
  match action world with
  | .ok result world => .ok result { session with world }
  | .error halt world => .error (halt.mapError .edit) { session with world }

end VisitAction

end CodeTree
