/-
The walk of a visitor. A node with a handler is given to it; the children of any other
value are walked in order: the elements of an array, the keys of a plain record, the
declared fields of a typed object. On the way, declared fields that are missing and
have a default are filled in.

Handlers call back into the walk, and nothing bounds how deep they do so. The walk is
therefore defined by the number of turns it may take inside one another; a walk that
needs more ends as such.
-/

import CodeTree.Visitor.Basic

namespace CodeTree

/-- Where a visit starts: at a cursor, or at a bare value, which is put into a holder under
`root`. -/
inductive VisitTarget where
  | cursor (c : CursorId)
  | bare (value : Value)
deriving DecidableEq

/-- The ways in which a handler can call back: to have the children of a value walked, to have a
value itself visited, and to start a visit of its own. -/
structure Calls (H σ : Type) where
  traverse : VisitorId → CursorId → VisitAction H σ Value
  dispatch : VisitorId → CursorId → VisitAction H σ Value
  start : VisitorId → VisitTarget → List Value → VisitAction H σ Value

/-- A session with the context of the handler that is running. -/
structure Frame (H σ : Type) where
  context : Context
  session : Session H σ

instance {H σ : Type} : HasWorld (Frame H σ) :=
  ⟨fun frame => frame.session.world,
    fun ⟨context, session⟩ world => ⟨context, { session with world }⟩⟩

/-- Actions of a handler. -/
abbrev Handling (H σ α : Type) := EStateM (Halt VisitError) (Frame H σ) α

/-- What handlers do, and what happens when a visit starts. -/
structure Behaviour (H σ : Type) where
  handle : Calls H σ → VisitorId → H → CursorId → Handling H σ Verdict
  reset : VisitorId → CursorId → List Value → VisitAction H σ Unit

namespace World

/-- Fills in the default of a missing field. -/
def fillField (world : World) (value : Value) (name : String) : World :=
  if world.store.hasMember value name then world
  else match world.store.fieldDefault? value name with
    | none => world
    | some default =>
      let (filled, store) := default.toValue.run world.store
      { world with store := store.setMember value name filled }

/-- The cursors of the given fields, with missing defaults filled in one after another. -/
def fieldCursors (world : World) (c : CursorId) : List String → List CursorId × World
  | [] => ([], world)
  | name :: rest =>
    let world := world.fillField (world.value c) name
    let (first, world) := world.child c (.key name)
    let (others, world) := world.fieldCursors c rest
    (first :: others, world)

/-- Puts a value into a fresh holder and gives the cursor of its slot. -/
def addHeldBy (world : World) (value : Value) : CursorId × World :=
  let (holder, store) := (Store.allocateObject [("root", value)]).run world.store
  let (root, world) := { world with store }.addRoot holder
  world.child root (.key "root")

end World

namespace Session

variable {H σ : Type}

/-- The fields that a visitor walks through in an object: those of the schema or of the record,
and then the comments, if the visitor has a handler for comments. -/
def walkedFields (session : Session H σ) (v : VisitorId) (value : Value) :
    Except UnknownType (List String) :=
  match session.world.store.fieldNames value with
  | .error unknown => .error unknown
  | .ok names =>
    if (session.visitor v).visitsComments && !(session.world.store.member value "comments").isNull &&
        !names.contains "comments" then
      .ok (names ++ ["comments"])
    else .ok names

end Session

namespace Handling

variable {H σ α : Type}

/-- Runs an action of the session. -/
def onSession (action : VisitAction H σ α) : Handling H σ α := fun ⟨context, session⟩ =>
  match action session with
  | .ok result session => .ok result ⟨context, session⟩
  | .error halt session => .error halt ⟨context, session⟩

/-- The session as it stands. -/
def session : Handling H σ (Session H σ) := onSession get

/-- The handler's own context from now on counts the children as dealt with. -/
def markTraversed : Handling H σ Unit :=
  modify (fun frame => { frame with context := { frame.context with mustTraverse := false } })

/-- Has the children of a value walked by a visitor. -/
def traverse (calls : Calls H σ) (v : VisitorId) (c : CursorId) : Handling H σ Value := do
  markTraversed
  onSession (calls.traverse v c)

/-- Has a value itself visited by a visitor. -/
def visit (calls : Calls H σ) (v : VisitorId) (c : CursorId) : Handling H σ Value := do
  markTraversed
  onSession (calls.dispatch v c)

/-- Stops the visit through a visitor. -/
def abort (v : VisitorId) : Handling H σ α := do
  onSession (modify (·.requestAbort v))
  throw (.error (.aborted v))

end Handling

namespace Visitor

variable {H σ : Type}

/-- Takes a context from the pool, or a new one, for a call at a cursor, which is held during the
call. -/
def openContext (v : VisitorId) (c : CursorId) : VisitAction H σ Context := do
  let slot := ((← get).visitor v).pool.head?.getD .idle
  modify (fun session => HasWorld.modifyWorld
    (session.modifyVisitor v (fun visitor => { visitor with pool := visitor.pool.tail })) (·.hold c))
  return { slot with current? := some c, mustTraverse := true }

/-- Empties a context and returns it to the pool. -/
def closeContext (v : VisitorId) (c : CursorId) (context : Context) (session : Session H σ) :
    Session H σ :=
  HasWorld.modifyWorld (session.modifyVisitor v (fun visitor =>
    { visitor with pool := { context with current? := none, mustTraverse := false } :: visitor.pool }))
    (·.release c)

/-- Carries out what a handler decided. The children must have been walked or skipped by then. -/
def settle (calls : Calls H σ) (v : VisitorId) (c : CursorId) (declared : NodeType)
    (verdict : Verdict) (context : Context) : VisitAction H σ Value := do
  match verdict with
  | .traversed => if context.mustTraverse then throw (.error (.notTraversed declared.name))
  | .skipChildren => pure ()
  | .replace value =>
    let _ ← VisitAction.onWorld (Action.replaceWith c value)
    if context.mustTraverse then
      let _ ← calls.traverse v c
  return (← get).world.value c

/-- Runs an action of a handler in a context, and gives the context as the handler left it. -/
def handled (action : Handling H σ Verdict) (context : Context) :
    VisitAction H σ (Verdict × Context) := fun session =>
  match action ⟨context, session⟩ with
  | .ok verdict frame => .ok (verdict, frame.context) frame.session
  | .error halt frame => .error halt frame.session

/-- Runs an action and then changes the session, whichever way the action ends. -/
def tidied (tidy : Session H σ → Session H σ) (action : VisitAction H σ Value) :
    VisitAction H σ Value := fun session =>
  match action session with
  | .ok result session => .ok result (tidy session)
  | .error halt session => .error halt (tidy session)

/-- Runs a handler at a cursor. -/
def invoke (behaviour : Behaviour H σ) (calls : Calls H σ) (v : VisitorId) (c : CursorId)
    (declared : NodeType) (handler : H) : VisitAction H σ Value := do
  let context ← openContext v c
  tidied (closeContext v c context) (do
    let (verdict, context) ← handled (behaviour.handle calls v handler c) context
    settle calls v c declared verdict context)

/-- Visits a value: by its handler if it has one, else by way of its children. -/
def dispatch (behaviour : Behaviour H σ) (calls : Calls H σ) (v : VisitorId) (c : CursorId) :
    VisitAction H σ Value := do
  let session ← get
  match session.handler? v (session.world.value c) with
  | some (declared, handler) => invoke behaviour calls v c declared handler
  | none => calls.traverse v c

/-- Walks through the children of a value. Those of an object are all held until the last has had
its turn. -/
def traverse (calls : Calls H σ) (v : VisitorId) (c : CursorId) : VisitAction H σ Value := do
  let visit := fun child => do
    let _ ← calls.dispatch v child
  let session ← get
  let value := session.world.value c
  match session.world.store.contents? value with
  | some (.array _) =>
    HasWorld.each c visit
  | some (.object _) =>
    match session.walkedFields v value with
    | .error unknown => throw (.error (.unrecognizedType unknown.shown))
    | .ok names =>
      let children ← HasWorld.updateWorld (fun world =>
        let (children, world) := world.fieldCursors c names
        (children, world.holdAll children))
      HasWorld.ensuring (children.forM visit) (·.releaseAll children)
  | none => pure ()
  return (← get).world.value c

/-- Ends a visit that started at a cursor. -/
def finish (v : VisitorId) (root : CursorId) (session : Session H σ) : Session H σ :=
  HasWorld.modifyWorld (session.modifyVisitor v (fun visitor => { visitor with visiting := false }))
    (·.release root)

/-- Runs a visit from its root. A visit that was stopped on request succeeds, unless the request
has been withdrawn. -/
def run (behaviour : Behaviour H σ) (calls : Calls H σ) (v : VisitorId) (root : CursorId)
    (arguments : List Value) : VisitAction H σ Value := fun session =>
  let visit : VisitAction H σ Value := do
    behaviour.reset v root arguments
    calls.dispatch v root
  match visit session with
  | .error (.error (.aborted through)) session =>
    if session.isCancelled through then .error (.error (.aborted through)) session
    else .ok (session.world.value root) session
  | outcome => outcome

/-- Starts a visit. A visitor that is visiting already refuses. -/
def start (behaviour : Behaviour H σ) (calls : Calls H σ) (v : VisitorId) (target : VisitTarget)
    (arguments : List Value) : VisitAction H σ Value := do
  if ((← get).visitor v).visiting then throw (.error .reentrant)
  modify (·.modifyVisitor v (fun visitor =>
    { visitor with visiting := true, changeReported := false, abortRequested := false }))
  let root ← HasWorld.updateWorld (fun world =>
    let (root, world) := match target with
      | .cursor c => (c, world)
      | .bare value => world.addHeldBy value
    (root, world.hold root))
  tidied (finish v root) (run behaviour calls v root arguments)

/-- The walk within a number of turns inside one another. -/
def calls (behaviour : Behaviour H σ) : Nat → Calls H σ
  | 0 =>
    { traverse := fun _ _ => throw .outOfTurns
      dispatch := fun _ _ => throw .outOfTurns
      start := fun _ _ _ => throw .outOfTurns }
  | turns + 1 =>
    { traverse := fun v c => traverse (calls behaviour turns) v c
      dispatch := fun v c => dispatch behaviour (calls behaviour turns) v c
      start := fun v target arguments => start behaviour (calls behaviour turns) v target arguments }

end Visitor

end CodeTree
