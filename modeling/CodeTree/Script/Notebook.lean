/-
The notebook of a running script: its registers, named values, visitors and logs, and the
numbers of what has been shown. A register holds its cursor, so that filling a register
takes hold of a cursor and emptying it lets go.
-/

import CodeTree.Cursor.Direct
import CodeTree.Node.Scope
import CodeTree.Script.Language
import CodeTree.Script.Transcript
import CodeTree.Visitor.Walk

namespace CodeTree

namespace Script

/-- What a script remembers between its steps. -/
structure Notebook where
  registers : Assoc String CursorId
  /-- Cursors that are remembered without being held. -/
  weak : Assoc String CursorId
  named : Assoc String Value
  visitors : Assoc String VisitorId
  logs : Assoc VisitorId (List LogEntry)
  /-- The visitors whose visits start with a fresh log. -/
  fresh : List VisitorId
  shownCursors : List CursorId
  shownScopes : List ScopeId
  /-- How many visits are running inside one another. -/
  running : Nat
  /-- How many handlers may still be called. -/
  budget : Nat

def Notebook.empty : Notebook :=
  { registers := .empty, weak := .empty, named := .empty, visitors := .empty, logs := .empty
    fresh := [], shownCursors := [], shownScopes := [], running := 0, budget := 0 }

/-- How many handlers a visit may call, those of visits inside it included. -/
def handlerBudget : Nat := 100

/-- The state of a running script. -/
abbrev State := Session Program Notebook

/-- Actions of a script. -/
abbrev ScriptAction (α : Type) := EStateM (Halt StepError) State α

namespace State

def modifyNotebook (state : State) (change : Notebook → Notebook) : State :=
  { state with state := change state.state }

/-- Fills a register, which lets go of what it held. -/
def fill (state : State) (register : String) (c : CursorId) : State :=
  let old := state.state.registers.get? register
  let state := HasWorld.modifyWorld state (fun world =>
    match old with
    | some old => (world.hold c).release old
    | none => world.hold c)
  state.modifyNotebook (fun notebook =>
    { notebook with registers := notebook.registers.insert register c })

/-- Empties a register. -/
def clear (state : State) (register : String) : State :=
  match state.state.registers.get? register with
  | none => state
  | some old =>
    (HasWorld.modifyWorld state (·.release old)).modifyNotebook (fun notebook =>
      { notebook with registers := notebook.registers.erase register })

/-- The register of the cursor whose turn it is. -/
def current : String := "it"

/-- Puts the cursor whose turn it is into its register. What was there stays held. -/
def enter (state : State) (c : CursorId) : State :=
  (HasWorld.modifyWorld state (·.hold c)).modifyNotebook (fun notebook =>
    { notebook with registers := notebook.registers.insert current c })

/-- Ends the turn of a cursor, and puts back what its register held before. -/
def leave (state : State) (before? : Option CursorId) : State :=
  (state.clear current).modifyNotebook (fun notebook =>
    match before? with
    | some before => { notebook with registers := notebook.registers.insert current before }
    | none => notebook)

def log (state : State) (v : VisitorId) : List LogEntry := (state.state.logs.get? v).getD []

def setLog (state : State) (v : VisitorId) (log : List LogEntry) : State :=
  state.modifyNotebook (fun notebook => { notebook with logs := notebook.logs.insert v log })

def addLog (state : State) (v : VisitorId) (entry : LogEntry) : State :=
  state.setLog v (state.log v ++ [entry])

def flags (state : State) (v : VisitorId) : Flags :=
  let visitor := state.visitor v
  { changed := visitor.changeReported, visiting := visitor.visiting, pooled := visitor.pool.length }

/-- The number of an item in the order of showing; a new item goes to the end. -/
def numbered (shown : List Nat) (item : Nat) : Nat × List Nat :=
  match shown.findIdx? (· == item) with
  | some number => (number, shown)
  | none => (shown.length, shown ++ [item])

/-- Shows a cursor. -/
def view (state : State) (c : CursorId) : CursorView × State :=
  let (number, shownCursors) := numbered state.state.shownCursors c
  let world := state.world
  ({ number, names := world.names c, value := world.store.document (world.value c) },
    state.modifyNotebook (fun notebook => { notebook with shownCursors }))

/-- Shows a scope as one around another. -/
def viewScope (state : State) (first s : ScopeId) : ScopeView × State :=
  let (number, shownScopes) := numbered state.state.shownScopes s
  let world := state.world
  let scope := world.scope s
  ({ number, kind := scope.kind, depth := scope.depth, isGlobal := scope.parent?.isNone
     node := world.store.document scope.node
     path? := (world.scopeCursor? s).map world.names
     description := world.describeScope s
     sharesOutermost := world.outermost s == world.outermost first },
    state.modifyNotebook (fun notebook => { notebook with shownScopes }))

end State

namespace ScriptAction

variable {α : Type}

/-- Runs an action of the session. -/
def ofVisit (action : VisitAction Program Notebook α) : ScriptAction α := fun state =>
  match action state with
  | .ok result state => .ok result state
  | .error halt state => .error (halt.mapError .visit) state

/-- Runs an action on the world. -/
def onWorld (action : Action α) : ScriptAction α := ofVisit (VisitAction.onWorld action)

def onStore (run : StateM Store α) : ScriptAction α := onWorld (Action.onStore run)

def require (name : String) (value? : Option α) : ScriptAction α :=
  match value? with
  | some value => pure value
  | none => throw (.error (.undefined name))

def register (name : String) : ScriptAction CursorId := do
  require name ((← get).state.registers.get? name)

def visitorNamed (name : String) : ScriptAction VisitorId := do
  require name ((← get).state.visitors.get? name)

def viewCursor (c : CursorId) : ScriptAction CursorView := fun state =>
  let (view, state) := state.view c
  .ok view state

def showScopes (s : ScopeId) : ScriptAction Reply := do
  let views ← ((← get).world.scopeChain s).mapM (fun around => fun state =>
    let (view, state) := State.viewScope state s around
    .ok view state)
  return .scopes views

def document (value : Value) : ScriptAction Document := do return (← get).world.store.document value

/-- Runs an action as the turn of a cursor. -/
def inTurn (c : CursorId) (action : ScriptAction α) : ScriptAction α := fun state =>
  let before? := state.state.registers.get? State.current
  match action (State.enter state c) with
  | .ok result state => .ok result (State.leave state before?)
  | .error halt state => .error halt (State.leave state before?)

/-- Runs an action while a cursor is held. -/
def holding (c : CursorId) (action : ScriptAction α) : ScriptAction α := do
  modify (HasWorld.modifyWorld · (·.hold c))
  HasWorld.ensuring action (·.release c)

/-! ### Values -/

mutual

/-- The value that a spec names. -/
def evaluate : Spec → ScriptAction Value
  | .literal document => onStore (Store.load document)
  | .ofCursor name => do
    let c ← register name
    return (← get).world.value c
  | .named name => do require name ((← get).state.named.get? name)
  | .node make parts lists => do
    let parts ← evaluateAll parts
    let lists ← evaluateLists lists
    onStore (make parts lists)
  | .member object key => do
    let object ← evaluate object
    return (← get).world.store.member object key
  | .item array index => do
    let array ← evaluate array
    return (← get).world.store.item array index
  | .copy value => do onStore (Store.copy (← evaluate value))
  | .list items => do onStore (Store.allocateArray (← evaluateAll items))
termination_by structural spec => spec

def evaluateAll : List Spec → ScriptAction (List Value)
  | [] => pure []
  | spec :: rest => do
    let first ← evaluate spec
    return first :: (← evaluateAll rest)
termination_by structural specs => specs

def evaluateLists : List (List Spec) → ScriptAction (List (List Value))
  | [] => pure []
  | specs :: rest => do
    let first ← evaluateAll specs
    return first :: (← evaluateLists rest)
termination_by structural lists => lists

end

end ScriptAction

end Script

end CodeTree
