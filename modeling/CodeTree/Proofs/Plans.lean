/-
Handlers as plans. What a handler does is a plan: it looks at the session, changes the world and
the state, signals to visitors, builds visitors, has values visited, and comes to a decision. The
pools of contexts are nothing that a handler sees. A plan is run in the context of its handler,
which notes whether the children have been walked. The same can be told without a context: a plan
is carried out, and along with the decision it comes out whether the handler has itself had
something walked or visited.
-/

import CodeTree.Proofs.Strolling

namespace CodeTree

variable {H σ γ : Type}

/-- What a handler can tell a visitor. -/
inductive Signal where
  | report (v : VisitorId)
  | abort (v : VisitorId)
  | cancel (v : VisitorId)

def Signal.send (session : Session H σ) : Signal → Session H σ
  | report v => session.reportChange v
  | abort v => session.requestAbort v
  | cancel v => session.cancelAbort v

/-- The ways in which a handler can have something visited: the children of a value, a value
itself, or a value in a visit of its own. The first two are calls of the handler's context, for
its own visitor or for another. -/
inductive Way where
  | traverse (v : VisitorId) (c : CursorId)
  | visit (v : VisitorId) (c : CursorId)
  | start (v : VisitorId) (target : VisitTarget) (arguments : List Value)

namespace Way

/-- Whether the handler's context is called. -/
def isTraversal : Way → Bool
  | traverse .. | visit .. => true
  | start .. => false

def run (calls : Calls H σ) : Way → Handling H σ Value
  | traverse v c => Handling.traverse calls v c
  | visit v c => Handling.visit calls v c
  | start v target arguments => Handling.onSession (calls.start v target arguments)

def perform (calls : Calls H σ) : Way → VisitAction H σ Value
  | traverse v c => calls.traverse v c
  | visit v c => calls.dispatch v c
  | start v target arguments => calls.start v target arguments

end Way

/-- The session without the contexts that visitors keep for later calls. -/
def Session.unpooled (session : Session H σ) : Session H σ :=
  { session with visitors := session.visitors.map fun visitor => { visitor with pool := [] } }

/-- Gives the error of an action as its result. Faults are not caught. -/
def attempt {τ α : Type} (action : EStateM (Halt VisitError) τ α) :
    EStateM (Halt VisitError) τ (Except VisitError α) := fun state =>
  match action state with
  | .ok result state => .ok (.ok result) state
  | .error (.error cause) state => .ok (.error cause) state
  | .error halt state => .error halt state

/-- What a handler does. -/
inductive Plan (H σ : Type) where
  | decide (verdict : Verdict)
  | fail (cause : VisitError)
  | crash (fault : Fault)
  | look (next : Session H σ → Plan H σ)
  | change (world : World) (state : σ) (next : Plan H σ)
  | send (signal : Signal) (next : Plan H σ)
  | build (handlers : List (NodeType × H)) (next : VisitorId → Plan H σ)
  | call (way : Way) (next : Except VisitError Value → Plan H σ)

namespace Plan

/-- Runs a plan in the context of its handler. -/
def run (calls : Calls H σ) : Plan H σ → Handling H σ Verdict
  | decide verdict => pure verdict
  | fail cause => throw (.error cause)
  | crash fault => throw (.fault fault)
  | look next => do
    let session ← Handling.session
    (next session.unpooled).run calls
  | change world state next => do
    Handling.onSession (modify fun session => { session with world, state })
    next.run calls
  | send signal next => do
    Handling.onSession (modify signal.send)
    next.run calls
  | build handlers next => do
    let v ← Handling.onSession (modifyGet (·.addVisitor (.ofHandlers handlers)))
    (next v).run calls
  | call way next => do
    let answer ← attempt (way.run calls)
    (next answer).run calls

/-- Carries out a plan, and tells whether the handler has by then called its context. -/
def perform (calls : Calls H σ) : Plan H σ → Bool → VisitAction H σ (Verdict × Bool)
  | decide verdict, called => pure (verdict, called)
  | fail cause, _ => throw (.error cause)
  | crash fault, _ => throw (.fault fault)
  | look next, called => do
    let session ← get
    (next session.unpooled).perform calls called
  | change world state next, called => do
    modify fun session => { session with world, state }
    next.perform calls called
  | send signal next, called => do
    modify signal.send
    next.perform calls called
  | build handlers next, called => do
    let v ← modifyGet (·.addVisitor (.ofHandlers handlers))
    (next v).perform calls called
  | call way next, called => do
    let answer ← attempt (way.perform calls)
    (next answer).perform calls (called || way.isTraversal)

end Plan

/-- The plans of handlers, and what happens when a visit starts: the world and the state may change,
unless there is a fault. -/
structure Table (H σ : Type) where
  plan : VisitorId → H → CursorId → Plan H σ
  opening : VisitorId → CursorId → List Value → Session H σ → Except Fault (World × σ)

/-- Handlers that follow their plans. -/
def Behaviour.ofTable (table : Table H σ) : Behaviour H σ where
  handle calls v handler c := (table.plan v handler c).run calls
  reset v c arguments session :=
    match table.opening v c arguments session.unpooled with
    | .ok (world, state) => .ok () { session with world, state }
    | .error fault => .error (.fault fault) session

/-! ### Plans that carry something along -/

/-- A session without what is carried along with its state. -/
def Session.plain (session : Session H (σ × γ)) : Session H σ :=
  { session with state := session.state.1 }

def Session.carrying (session : Session H σ) (carried : γ) : Session H (σ × γ) :=
  { session with state := (session.state, carried) }

/-- A plan that does not touch what is carried along with the state. -/
def Plan.carried : Plan H σ → Plan H (σ × γ)
  | decide verdict => .decide verdict
  | fail cause => .fail cause
  | crash fault => .crash fault
  | look next => .look fun session => (next session.plain).carried
  | change world state next => .look fun session =>
    .change world (state, session.state.2) next.carried
  | send signal next => .send signal next.carried
  | build handlers next => .build handlers fun v => (next v).carried
  | call way next => .call way fun answer => (next answer).carried

def Table.carried (table : Table H σ) : Table H (σ × γ) where
  plan v handler c := (table.plan v handler c).carried
  opening v c arguments session :=
    (table.opening v c arguments session.plain).map fun (world, state) =>
      (world, (state, session.state.2))

namespace Visitor

/-! ### Contexts told apart from plans -/

/-- The context of a handler notes what the handler has called. -/
theorem attempt_run (calls : Calls H σ) (way : Way) (current? : Option CursorId) (called : Bool)
    (session : Session H σ) :
    attempt (way.run calls) ⟨⟨current?, !called⟩, session⟩ =
      match attempt (way.perform calls) session with
      | .ok answer after => .ok answer ⟨⟨current?, !(called || way.isTraversal)⟩, after⟩
      | .error halt after => .error halt ⟨⟨current?, !(called || way.isTraversal)⟩, after⟩ := by
  have onSession (context : Context) (action : VisitAction H σ Value) :
      attempt (Handling.onSession action) ⟨context, session⟩ =
        match attempt action session with
        | .ok answer after => .ok answer ⟨context, after⟩
        | .error halt after => .error halt ⟨context, after⟩ := by
    simp only [attempt, Handling.onSession]
    cases action session with
    | ok => rfl
    | error halt => cases halt <;> rfl
  cases way with
  | traverse v c =>
    rw [Way.isTraversal, Bool.or_true]
    exact onSession ⟨current?, false⟩ (calls.traverse v c)
  | visit v c =>
    rw [Way.isTraversal, Bool.or_true]
    exact onSession ⟨current?, false⟩ (calls.dispatch v c)
  | start v target arguments =>
    rw [Way.isTraversal, Bool.or_false]
    exact onSession ⟨current?, !called⟩ (calls.start v target arguments)

/-- Running a plan in a context is carrying it out and noting in the context what it has called. -/
theorem handled_run (calls : Calls H σ) (plan : Plan H σ) (current? : Option CursorId)
    (called : Bool) (session : Session H σ) :
    handled (plan.run calls) ⟨current?, !called⟩ session =
      EStateM.map (fun outcome => (outcome.1, ⟨current?, !outcome.2⟩))
        (plan.perform calls called) session := by
  induction plan generalizing called session with
  | decide verdict => rfl
  | fail cause => rfl
  | crash fault => rfl
  | look next ih => exact ih _ called session
  | change world state next ih => exact ih called _
  | send signal next ih => exact ih called _
  | build handlers next ih => exact ih _ called _
  | call way next ih =>
    simp only [handled, Plan.run, Plan.perform, bind, EStateM.bind, EStateM.map, attempt_run]
    cases attempt (way.perform calls) session with
    | ok answer after => exact ih answer (called || way.isTraversal) after
    | error halt after => rfl

/-- Carries out what a handler has decided. A handler that claims to have had the children walked
must have called its context. -/
def conclude (calls : Calls H σ) (v : VisitorId) (c : CursorId) (declared : NodeType) :
    Verdict × Bool → VisitAction H σ Value
  | (.traversed, true) => return (← get).world.value c
  | (.traversed, false) => throw (.error (.notTraversed declared.name))
  | (.skipChildren, _) => return (← get).world.value c
  | (.replace value, called) => do
    let _ ← VisitAction.onWorld (Action.replaceWith c value)
    if !called then
      let _ ← calls.traverse v c
    return (← get).world.value c

/-- A call of a handler is its plan carried out, with a context opened before and closed behind. -/
theorem invoke_ofTable (table : Table H σ) (calls : Calls H σ) (v : VisitorId) (c : CursorId)
    (declared : NodeType) (handler : H) (session : Session H σ) :
    invoke (.ofTable table) calls v c declared handler session =
      tidying (closeContext v c ⟨some c, true⟩)
        (EStateM.bind ((table.plan v handler c).perform calls false) (conclude calls v c declared)
          (Stroll.entered v c session)) := by
  have called : invoke (.ofTable table) calls v c declared handler session =
      tidied (closeContext v c ⟨some c, true⟩)
        (EStateM.bind (handled ((table.plan v handler c).run calls) ⟨some c, !false⟩)
          fun handled => settle calls v c declared handled.1 handled.2)
        (Stroll.entered v c session) := rfl
  rw [called, tidied_apply, EStateM.bind, handled_run, EStateM.map, EStateM.bind]
  cases (table.plan v handler c).perform calls false (Stroll.entered v c session) with
  | ok outcome after =>
    obtain ⟨verdict, called⟩ := outcome
    cases verdict with
    | traversed => cases called <;> rfl
    | skipChildren => rfl
    | replace value => rfl
  | error halt after => rfl

end Visitor

end CodeTree
