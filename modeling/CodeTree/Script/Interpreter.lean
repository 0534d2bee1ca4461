/-
Running scripts. A step is run on the state of the script and shows a reply; the cursor it
works on is held meanwhile.
-/

import CodeTree.Cursor.Describe
import CodeTree.Node.Parens
import CodeTree.Node.Prune
import CodeTree.Script.Notebook

namespace CodeTree

namespace Script

open ScriptAction

/-! ### Parts of steps -/

/-- Keeps a cursor in a register and shows it. -/
def keepCursor (keep? : Option String) (c : CursorId) : ScriptAction Reply :=
  holding c do
    match keep? with
    | some name => modify (State.fill · name c)
    | none => pure ()
    return .cursor (← viewCursor c)

/-- Keeps and shows a cursor if there is one. -/
def keepOptional (keep? : Option String) (c? : Option CursorId) : ScriptAction Reply :=
  match c? with
  | some c => keepCursor keep? c
  | none => pure .nothing

/-- Shows a value that was taken out, and keeps it in a variable. -/
def takenOut (name? : Option String) (value? : Option Value) : ScriptAction Reply := do
  match value? with
  | none => return .optionalValue none
  | some value =>
    match name? with
    | some name => modify (State.modifyNotebook · (fun notebook =>
        { notebook with named := notebook.named.insert name value }))
    | none => pure ()
    return .optionalValue (some (← document value))

/-- The elements that a selection asks for, of the array at a cursor. -/
def select (c : CursorId) (selection : Selection) : ScriptAction (List CursorId) := do
  let passes : World → CursorId → Bool ← match selection with
    | .all => pure (fun _ _ => true)
    | .ofType name =>
      match NodeType.parse name with
      | .error unknown => throw (.error (.unknownType unknown))
      | .ok type => pure (fun world d => world.store.isOf type (world.value d))
    | .equalTo spec =>
      let wanted ← evaluate spec
      pure (fun world d => world.store.equal (world.value d) wanted)
  let elements ← HasWorld.updateWorld (·.elements c)
  let world := (← get).world
  return elements.filter (passes world)

/-- Compares a fresh composite with the one it was made from. -/
def compareRewrapped (target made : Value) : ScriptAction Reply := do
  let store := (← get).world.store
  return .rewrapped (made.same target) (store.equal made target) (store.describe made)

/-- Asks or writes without a cursor. -/
def callDirect (target : Value) (call : DirectCall) : ScriptAction Reply := do
  let store := (← get).world.store
  let contents? := store.contents? target
  let shown := fun value => Reply.value (store.document value)
  let optional := fun (value? : Option Value) => Reply.optionalValue (value?.map store.document)
  match call, contents? with
  | .text, _ => return .text (store.render target)
  | .type, _ => return .typed (store.typeName? target) (store.type? target)
  | .member key, _ => return shown (store.member target key)
  | .item index, _ => return shown (store.item target index)
  | .size, some (.array items) => return .size items.length
  | .size, some (.object members) => return .size members.size
  | .get index _, some (.array _) => return shown (store.item target index)
  | .get _ key, some (.object _) => return shown (store.member target key)
  | .set index spec, some (.array _) =>
    onWorld (Action.setItem target index (← evaluate spec))
    return .nothing
  | .position spec, some (.array items) => return .position (Store.position? items (← evaluate spec))
  | .insert index _ spec, some (.array _) =>
    onWorld (Action.insertItem target index (← evaluate spec))
    return .nothing
  | .insert _ key spec, some (.object _) =>
    return optional (← onWorld (Action.setMember target key (← evaluate spec)))
  | .remove index _, some (.array _) => return shown (← onWorld (Action.removeItem target index))
  | .remove _ key, some (.object _) => return optional (← onWorld (Action.eraseMember target key))
  | .has key, some (.object members) => return .flag (members.contains key)
  | .keys, some (.object members) => return .texts members.keys
  | .rewrap, some (.array items) => compareRewrapped target (← onStore (Store.allocateArray items))
  | .rewrap, some (.object members) =>
    compareRewrapped target (← onStore (Store.allocate (.object members)))
  | _, _ => throw (.error (.undefined "direct call"))

/-- The handlers by type, given by their type names. -/
def handlersByType : List (String × Program) → Except UnknownType (List (NodeType × Program))
  | [] => .ok []
  | (name, program) :: rest =>
    match NodeType.parse name with
    | .error unknown => .error unknown
    | .ok type => (handlersByType rest).map ((type, program) :: ·)

/-- Defines a visitor. -/
def define (name : String) (fresh : Bool) (handlers : List (String × List Instruction)) :
    ScriptAction Reply := do
  let programs := handlers.map (fun handler => (handler.1, (⟨handler.1, handler.2⟩ : Program)))
  let visitor ←
    if fresh then
      match handlersByType programs with
      | .error unknown => throw (.error (.unknownType unknown))
      | .ok typed => pure (Visitor.ofHandlers typed)
    else
      match Visitor.ofNamed programs with
      | .error error => throw (.error (.visit error))
      | .ok visitor => pure visitor
  modify (fun state =>
    let (v, state) := Session.addVisitor state visitor
    State.modifyNotebook state (fun notebook =>
      { notebook with
        visitors := notebook.visitors.insert name v
        fresh := if fresh then v :: notebook.fresh else notebook.fresh }))
  return .visitor visitor.describe visitor.visitsComments
    (NodeType.all.filterMap (fun type =>
      (visitor.resolve? type).map (fun declared => (type, declared))))

/-- Runs a visit and catches its error. -/
def tryVisit (visit : VisitAction Program Notebook Value) :
    ScriptAction (Except VisitError Value) := fun state =>
  match visit state with
  | .ok value state => .ok (.ok value) state
  | .error (.error error) state => .ok (.error error) state
  | .error halt state => .error (halt.mapError .visit) state

/-- How a visit ended. -/
def visitOutcome (before : Value) : Except VisitError Value → ScriptAction VisitOutcome
  | .ok value => do return .done ((← get).world.store.render value) (value.same before)
  | .error (.aborted through) => do
    return .failed (.aborted through) (some ((← get).isCancelled through))
  | .error error => pure (.failed error none)

/-- Starts a visit at a target whose value is `before`. The log is shown unless a visit was running
already. -/
def startVisit (calls : Calls Program Notebook) (v : VisitorId) (target : VisitTarget) (before : Value)
    (arguments : List Value) (clear : Bool) : ScriptAction Reply := do
  let busy := (← get).visitors.any (·.visiting)
  modify (State.modifyNotebook · (fun notebook =>
    { notebook with
      budget := if notebook.running = 0 then handlerBudget else notebook.budget
      running := notebook.running + 1 }))
  let result ← tryVisit (calls.start v target arguments)
  modify (State.modifyNotebook · (fun notebook => { notebook with running := notebook.running - 1 }))
  let outcome ← visitOutcome before result
  let state ← get
  let log := State.log state v
  if clear then modify (State.setLog · v [])
  return .visited (State.flags state v) outcome (if busy then none else some log)

/-- Runs an action on the cursor of a register, which is held meanwhile. -/
def onRegister (name : String) (action : CursorId → ScriptAction Reply) : ScriptAction Reply := do
  let c ← register name
  holding c (action c)

/-- An edit of the array at the cursor of a register, with the given values. -/
def editWith (name : String) (values : List Spec) (edit : CursorId → List Value → Action Reply) :
    ScriptAction Reply :=
  onRegister name fun c => do
    let values ← evaluateAll values
    onWorld (edit c values)

/-- How a step ended. Faults are not caught. -/
def entryOf (action : ScriptAction Reply) : ScriptAction Entry := fun state =>
  match action state with
  | .ok reply state => .ok (.ok reply) state
  | .error (.error error) state => .ok (.failed error) state
  | .error halt state => .error halt state

/-- Gives each of the held cursors its turn and lets go of it. A turn gives results and may end
in a failure, which ends the turns and lets go of the others. -/
def turnsUntil {α δ : Type} (visit : CursorId → ScriptAction (List α × Option δ)) :
    List CursorId → ScriptAction (List α × Option δ)
  | [] => pure ([], none)
  | c :: rest => fun state =>
    match visit c state with
    | .ok (results, some failure) state =>
      .ok (results, some failure) (HasWorld.modifyWorld state (·.releaseAll (c :: rest)))
    | .ok (results, none) state =>
      match turnsUntil visit rest (HasWorld.modifyWorld state (·.release c)) with
      | .ok (others, failure?) state => .ok (results ++ others, failure?) state
      | .error halt state => .error halt state
    | .error halt state => .error halt (HasWorld.modifyWorld state (·.releaseAll (c :: rest)))

/-- Gives each element of the array at a cursor its turn, in which it is the current cursor. -/
def eachElement {α δ : Type} (c : CursorId) (turn : ScriptAction (List α × Option δ)) :
    ScriptAction (List α × Option δ) := do
  let elements ← HasWorld.updateWorld (fun world =>
    let (elements, world) := world.elements c
    (elements, world.holdAll elements))
  turnsUntil (fun child => inTurn child turn) elements

/-! ### Steps -/

mutual

/-- Runs a step. -/
def run (calls : Calls Program Notebook) : Step → ScriptAction Reply
  | .get on names keep? => onRegister on fun c => do
    keepCursor keep? (← HasWorld.updateWorld (·.descend c names))
  | .parentPath on keep? => onRegister on fun c => do keepOptional keep? ((← get).world.parent? c)
  | .info on => onRegister on fun c => do return .details (← viewCursor c) ((← get).world.name? c)
  | .describe on => onRegister on fun c => do return .text ((← get).world.describeCursor c)
  | .sameCursor on other => onRegister on fun c => do return .flag (c == (← register other))
  | .remember on weak => onRegister on fun c => do
    modify (State.modifyNotebook · (fun notebook =>
      { notebook with weak := notebook.weak.insert weak c }))
    return .nothing
  | .recall weak keep? => do
    let c ← require weak ((← get).state.weak.get? weak)
    keepOptional keep? (if (← get).world.isAlive c then some c else none)
  | .drop registers => do
    modify (registers.foldl State.clear ·)
    return .nothing
  | .dump => do
    let entries := (← get).state.registers.entries.mergeSort (fun left right => left.1 ≤ right.1)
    return .registers (← entries.mapM (fun entry => do return (entry.1, ← viewCursor entry.2)))
  | .root spec keep? => do
    let value ← evaluate spec
    keepCursor keep? (← HasWorld.updateWorld (·.addRoot value))
  | .each on steps => onRegister on fun c => do
    let turn : ScriptAction (List (List Entry) × Option Empty) := do
      return ([← runAll calls steps], none)
    let (entries, _) ← eachElement c turn
    return .nested entries
  | .tryEach on steps => onRegister on fun c => do
    let (seen, failure?) ← eachElement c (runUntil calls steps)
    return .attempted seen failure?
  | .elements on selection => onRegister on fun c => do
    return .cursors (← (← select c selection).mapM viewCursor)
  | .shift on name? => onRegister on fun c => do takenOut name? (← onWorld (Action.shift c))
  | .pop on name? => onRegister on fun c => do takenOut name? (← onWorld (Action.pop c))
  | .unshift on values => editWith on values fun c values => .count <$> Action.unshift c values
  | .push on values => editWith on values fun c values => .count <$> Action.push c values
  | .insertAt on index values => editWith on values fun c values =>
    (fun _ => .nothing) <$> Action.insertAt c index values
  | .insertBefore on values => editWith on values fun c values =>
    (fun _ => .nothing) <$> Action.insertBefore c values
  | .insertAfter on values => editWith on values fun c values =>
    (fun _ => .nothing) <$> Action.insertAfter c values
  | .replace on values keep => onRegister on fun c => do
    let values ← evaluateAll values
    let results ← onWorld (Action.replace c values)
    modify ((keep.zip results).foldl (fun state entry => State.fill state entry.1 entry.2) ·)
    return .cursors (← results.mapM viewCursor)
  | .replaceWith on value keep? => onRegister on fun c => do
    let value ← evaluate value
    keepCursor keep? (← onWorld (Action.replaceWith c value))
  | .remove on => onRegister on fun c => do
    onWorld (Action.remove c)
    return .nothing
  | .assign name spec => do
    let value ← evaluate spec
    modify (State.modifyNotebook · (fun notebook =>
      { notebook with named := notebook.named.insert name value }))
    return .value (← document value)
  | .compare left right => do
    let left ← evaluate left
    let right ← evaluate right
    return .comparison (left.same right) ((← get).world.store.equal left right)
  | .direct target call => do callDirect (← evaluate target) call
  | .node on => onRegister on fun c => do
    match ← HasWorld.updateWorld (·.node c) with
    | some node => return .optionalValue (some (← document node))
    | none => return .optionalValue none
  | .parent on keep? => onRegister on fun c => do
    keepOptional keep? (← HasWorld.updateWorld (·.parentNode c))
  | .scope on => onRegister on fun c => do
    match ← HasWorld.updateWorld (·.scopeAt c) with
    | some s => showScopes s
    | none => return .nothing
  | .establishScope on parent? => onRegister on fun c => do
    let around? ← match parent? with
      | some name => do
        let d ← register name
        HasWorld.updateWorld (·.scopeAt d)
      | none => pure none
    showScopes (← onWorld (Action.establishScope c around?))
  | .canBeFirst on => onRegister on fun c => .flag <$> onWorld (Action.canBeFirst c)
  | .isFirst on => onRegister on fun c => .flag <$> onWorld (Action.isFirst c)
  | .needsParens on inExpression => onRegister on fun c =>
    .flag <$> onWorld (Action.needsParens c inExpression)
  | .prune on keep? => onRegister on fun c => do keepOptional keep? (← onWorld (Action.prune c))
  | .define name fresh handlers => define name fresh handlers
  | .visitCursor visitor on arguments clear => onRegister on fun c => do
    let v ← visitorNamed visitor
    let before := (← get).world.value c
    startVisit calls v (.cursor c) before (← evaluateAll arguments) clear
  | .visitValue visitor spec arguments clear => do
    let v ← visitorNamed visitor
    let value ← evaluate spec
    startVisit calls v (.bare value) value (← evaluateAll arguments) clear
  | .flags visitor => do
    let v ← visitorNamed visitor
    let state ← get
    return .flags (State.flags state v) (State.log state v)
  | .abort visitor cancel => do
    let v ← visitorNamed visitor
    modify (·.requestAbort v)
    if cancel then modify (·.cancelAbort v)
    let state ← get
    return .raised (.aborted v) (state.isCancelled v) (state.describeAbort v)
termination_by structural step => step

/-- Runs steps one after another, whichever way each ends. -/
def runAll (calls : Calls Program Notebook) : List Step → ScriptAction (List Entry)
  | [] => pure []
  | step :: rest => do
    let first ← entryOf (run calls step)
    return first :: (← runAll calls rest)
termination_by structural steps => steps

/-- Runs steps until one fails, and gives what the others showed. -/
def runUntil (calls : Calls Program Notebook) :
    List Step → ScriptAction (List Reply × Option StepError)
  | [] => pure ([], none)
  | step :: rest => do
    match ← entryOf (run calls step) with
    | .failed error => return ([], some error)
    | .ok reply =>
      let (replies, failure?) ← runUntil calls rest
      return (reply :: replies, failure?)
termination_by structural steps => steps

end

/-! ### Handlers -/

/-- An action of the script as one of a handler. -/
def handling {α : Type} (action : ScriptAction α) : Handling Program Notebook α :=
  fun ⟨context, session⟩ =>
    match action session with
    | .ok result session => .ok result ⟨context, session⟩
    | .error halt session => .error (halt.mapError StepError.toVisitError) ⟨context, session⟩

/-- Whether a condition holds for a visitor at a cursor. -/
def holds (v : VisitorId) (c : CursorId) : Condition → ScriptAction Bool
  | .fieldIs key literal => do
    let wanted ← onStore (Store.load literal)
    let world := (← get).world
    return world.store.equal (world.store.member (world.value c) key) wanted
  | .isOf type => do
    let world := (← get).world
    return (NodeType.ofName? type).any (fun type => world.store.isOf type (world.value c))
  | .nameIs name? => do return (← get).world.name? c == name?
  | .logged count => do return count ≤ (State.log (← get) v).length
  | .changed => do return ((← get).visitor v).changeReported
  | .needsParens => onWorld (Action.needsParens c false)
  | .not condition => do return !(← holds v c condition)

/-- The visitor that an instruction names, or the handler's own. -/
def visitorOr (v : VisitorId) : Option String → Handling Program Notebook VisitorId
  | some name => handling (visitorNamed name)
  | none => pure v

def addLog (v : VisitorId) (entry : LogEntry) : Handling Program Notebook Unit :=
  handling (modify (State.addLog · v entry))

/-- Runs a walk at the slot that names lead to, which is held meanwhile. -/
def walkAt (c : CursorId) (names : List SlotName)
    (walk : CursorId → Handling Program Notebook Value) :
    Handling Program Notebook (Option Verdict) := do
  let target ← HasWorld.updateWorld (fun world =>
    let (target, world) := world.descend c names
    (target, world.hold target))
  let _ ← HasWorld.ensuring (walk target) (·.release target)
  return none

/-- What a handler does about an error that it has caught. -/
def afterCatching (v : VisitorId) (catching : Catching) (error : VisitError) :
    Handling Program Notebook (Option Verdict) := do
  addLog v (.caught error)
  match catching, error with
  | .drop, _ => return none
  | .cancel, .aborted through =>
    handling (modify (·.cancelAbort through))
    throw (.error error)
  | _, _ => throw (.error error)

mutual

/-- Runs an instruction, which may return for its handler. -/
def perform (calls : Calls Program Notebook) (v : VisitorId) (declared : String) (c : CursorId) :
    Instruction → Handling Program Notebook (Option Verdict)
  | .log => do
    let world := (← get).session.world
    addLog v (.handled declared (world.store.typeName? (world.value c)) (world.names c))
    return none
  | .note => do
    let frame ← get
    addLog v (.noted (State.flags frame.session v) (frame.context.current? == some c))
    return none
  | .traverse visitor? names => do
    walkAt c names (Handling.traverse calls (← visitorOr v visitor?))
  | .visit visitor? names => do walkAt c names (Handling.visit calls (← visitorOr v visitor?))
  | .traversed => return some .traversed
  | .skip => return some .skipChildren
  | .replace value => do return some (.replace (← handling (evaluate value)))
  | .fail message => throw (.error (.handler message))
  | .abort visitor? => do Handling.abort (← visitorOr v visitor?)
  | .report => do
    handling (modify (·.reportChange v))
    return none
  | .step step => do
    addLog v (.stepped (← handling (entryOf (run calls step))))
    return none
  | .must step => do
    let _ ← handling (run calls step)
    return none
  | .ifElse condition yes no => do
    if ← handling (holds v c condition) then performAll calls v declared c yes
    else performAll calls v declared c no
  | .attempt catching instructions => fun frame =>
    match performAll calls v declared c instructions frame with
    | .error (.error error) frame => afterCatching v catching error frame
    | outcome => outcome
termination_by structural instruction => instruction

/-- Runs instructions until one of them returns for the handler. -/
def performAll (calls : Calls Program Notebook) (v : VisitorId) (declared : String)
    (c : CursorId) : List Instruction → Handling Program Notebook (Option Verdict)
  | [] => return none
  | instruction :: rest => do
    match ← perform calls v declared c instruction with
    | some verdict => return some verdict
    | none => performAll calls v declared c rest
termination_by structural instructions => instructions

end

/-- Runs a handler, with its cursor as the current one, as long as the budget lasts. A handler
that does not return claims to have had the children walked. -/
def handle (calls : Calls Program Notebook) (v : VisitorId) (program : Program) (c : CursorId) :
    Handling Program Notebook Verdict := fun ⟨context, state⟩ =>
  if state.state.budget = 0 then .error (.error (.handler "budget")) ⟨context, state⟩
  else
    let before? := state.state.registers.get? State.current
    let state := State.modifyNotebook state (fun notebook =>
      { notebook with budget := notebook.budget - 1 })
    match performAll calls v program.declared c program.instructions
        ⟨context, State.enter state c⟩ with
    | .ok verdict? ⟨context, state⟩ =>
      .ok (verdict?.getD .traversed) ⟨context, State.leave state before?⟩
    | .error halt ⟨context, state⟩ => .error halt ⟨context, State.leave state before?⟩

/-- Starts a fresh log if the visitor is to have one. -/
def startLog (v : VisitorId) (root : CursorId) (arguments : List Value) :
    VisitAction Program Notebook Unit :=
  modify (fun state =>
    if state.state.fresh.contains v then
      let (view, state) := State.view state root
      let world := state.world
      let holder? := (world.parent? root).map (fun parent =>
        world.store.document (world.value parent))
      State.setLog state v [.started view holder? (arguments.map world.store.document)]
    else state)

def behaviour : Behaviour Program Notebook := ⟨handle, startLog⟩

/-! ### Scripts -/

/-- How many turns inside one another a script is given. -/
def turnLimit : Nat := 1000000

/-- Runs the steps of a script on a tree whose text was `shown`, until one ends in a fault. -/
def lines (tree : Value) (shown : String) (state : State) : List Step → List Line
  | [] => []
  | step :: rest =>
    match entryOf (run (Visitor.calls behaviour turnLimit) step) state with
    | .error (.fault fault) _ => [.fault fault]
    | .error _ _ => [.outOfTurns]
    | .ok entry state =>
      let text := state.world.store.render tree
      .entry entry (if text == shown then none else some text) :: lines tree text state rest

def State.empty : State := { world := .empty, visitors := #[], state := .empty }

/-- Runs a script on a tree. The cursor of the tree is in the register `root`. -/
def transcript (tree : Spec) (steps : List Step) : Except StepError (List Line) :=
  let start : ScriptAction Value := do
    let tree ← evaluate tree
    let root ← HasWorld.updateWorld (·.addRoot tree)
    modify (State.fill · "root" root)
    let _ ← viewCursor root
    return tree
  match start State.empty with
  | .ok tree state => .ok (lines tree (state.world.store.render tree) state steps)
  | .error (.error error) _ => .error error
  | .error _ _ => .ok [.outOfTurns]

end Script

end CodeTree
