/-
The steps of a visit. The children of a value are found and held, and have their turns in order; a
handler is called in a context of its own; and a visit as a whole begins and ends with its visitor
and its root cursor. In each of these something is tidied up at the end, however it has ended.
-/

import CodeTree.Proofs.Collecting

namespace CodeTree

variable {members : Assoc String Value} {items : List Value} {v : VisitorId}

/-! ### Taking hold and letting go -/

namespace World

theorem holdAll_eq (world : World) (cs : List CursorId) :
    world.holdAll cs = { world with held := cs.reverse ++ world.held } := by
  induction cs generalizing world with
  | nil => rfl
  | cons c cs ih =>
    rw [holdAll, List.foldl_cons, ← holdAll, ih, hold, List.reverse_cons, List.append_assoc]
    rfl

theorem releaseAll_eq (world : World) (cs : List CursorId) :
    world.releaseAll cs = { world with held := cs.foldl List.erase world.held } := by
  induction cs generalizing world with
  | nil => rfl
  | cons c cs ih =>
    rw [releaseAll, List.foldl_cons, ← releaseAll, ih]
    rfl

end World

/-! ### The steps of a walk -/

/-- How an action of a session has ended. -/
abbrev Ended (H σ α : Type) := EStateM.Result (Halt VisitError) (Session H σ) α

namespace Visitor

variable {H σ : Type} {calls : Calls H σ} {c : CursorId} {session : Session H σ}

/-- The turn of a child. -/
def turn (calls : Calls H σ) (v : VisitorId) (child : CursorId) : VisitAction H σ Unit := do
  let _ ← calls.dispatch v child

/-- Does something and answers with the value at a cursor afterwards. -/
def answering {α : Type} (c : CursorId) (action : VisitAction H σ α) : VisitAction H σ Value := do
  let _ ← action
  return (← get).world.value c

/-- Tidies the session in which something has ended. -/
def tidying {α : Type} (tidy : Session H σ → Session H σ) : Ended H σ α → Ended H σ α
  | .ok result session => .ok result (tidy session)
  | .error halt session => .error halt (tidy session)

theorem ensuring_apply {α : Type} (action : VisitAction H σ α) (tidy : World → World)
    (session : Session H σ) :
    HasWorld.ensuring action tidy session =
      tidying (HasWorld.modifyWorld · tidy) (action session) := by
  rw [HasWorld.ensuring]
  cases action session <;> rfl

theorem tidied_apply (tidy : Session H σ → Session H σ) (action : VisitAction H σ Value)
    (session : Session H σ) : tidied tidy action session = tidying tidy (action session) := by
  rw [tidied]
  cases action session <;> rfl

theorem traverse_plain (plain : session.world.store.contents? (session.world.value c) = none) :
    traverse calls v c session = .ok (session.world.value c) session := by
  simp only [traverse, bind, EStateM.bind, get, getThe, MonadStateOf.get, get_apply, plain, pure,
    EStateM.pure]

theorem traverse_array
    (array : session.world.store.contents? (session.world.value c) = some (.array items)) :
    traverse calls v c session =
      answering c (HasWorld.turns (turn calls v) (session.world.elements c).1)
        { session with
          world := (session.world.elements c).2.holdAll (session.world.elements c).1 } := by
  simp only [traverse, bind, EStateM.bind, get, getThe, MonadStateOf.get, get_apply, array]
  rfl

section Object

variable (object : session.world.store.contents? (session.world.value c) = some (.object members))

include object

theorem traverse_refused {unknown : UnknownType}
    (refused : session.walkedFields v (session.world.value c) = .error unknown) :
    traverse calls v c session = .error (.error (.unrecognizedType unknown.shown)) session := by
  simp only [traverse, bind, EStateM.bind, get, getThe, MonadStateOf.get, get_apply, object,
    refused]
  rfl

theorem traverse_object {names : List String}
    (fields : session.walkedFields v (session.world.value c) = .ok names) :
    traverse calls v c session =
      answering c (HasWorld.ensuring
        ((session.world.fieldCursors c names).1.forM (turn calls v))
        (·.releaseAll (session.world.fieldCursors c names).1))
        { session with
          world := (session.world.fieldCursors c names).2.holdAll
            (session.world.fieldCursors c names).1 } := by
  simp only [traverse, bind, EStateM.bind, get, getThe, MonadStateOf.get, get_apply, object,
    fields]
  rfl

end Object

end Visitor

/-! ### Calls of handlers and visits as a whole -/

/-- The cursor at which a visit starts. -/
def VisitTarget.enter (world : World) : VisitTarget → CursorId × World
  | cursor c => (c, world)
  | bare value => world.addHeldBy value

section Calls

variable {H σ : Type} (behaviour : Behaviour H σ) (calls : Calls H σ) {session : Session H σ}

theorem Session.visitor_modifyVisitor (session : Session H σ) (v w : VisitorId)
    (change : Visitor H → Visitor H) :
    (session.modifyVisitor v change).visitor w =
      if v = w ∧ w < session.visitors.size then change (session.visitor w)
      else session.visitor w := by
  simp only [Session.visitor, Session.modifyVisitor, Array.getElem?_modify]
  by_cases same : v = w
  · subst same
    by_cases inside : v < session.visitors.size
    · simp [inside]
    · simp [inside]
  · simp [same]

namespace Stroll

/-- A session whose handler has been called at a cursor. -/
def entered (v : VisitorId) (c : CursorId) (session : Session H σ) : Session H σ :=
  HasWorld.modifyWorld (session.modifyVisitor v fun visitor =>
    { visitor with pool := visitor.pool.tail }) (·.hold c)

/-- Carries out what a handler has decided, unless it has halted. -/
def settled (v : VisitorId) (c : CursorId) (declared : NodeType) :
    EStateM.Result (Halt VisitError) (Frame H σ) Verdict → Ended H σ Value
  | .ok verdict frame => Visitor.settle calls v c declared verdict frame.context frame.session
  | .error halt frame => .error halt frame.session

theorem invoke_eq (v : VisitorId) (c : CursorId) (declared : NodeType) (handler : H)
    (session : Session H σ) :
    Visitor.invoke behaviour calls v c declared handler session =
      Visitor.tidying (Visitor.closeContext v c ⟨some c, true⟩) (settled calls v c declared
        (behaviour.handle calls v handler c ⟨⟨some c, true⟩, entered v c session⟩)) := by
  have called : Visitor.invoke behaviour calls v c declared handler session =
      Visitor.tidied (Visitor.closeContext v c ⟨some c, true⟩)
        (EStateM.bind (Visitor.handled (behaviour.handle calls v handler c) ⟨some c, true⟩)
          fun handled => Visitor.settle calls v c declared handled.1 handled.2)
        (entered v c session) := rfl
  rw [called, Visitor.tidied_apply, EStateM.bind, Visitor.handled]
  cases behaviour.handle calls v handler c ⟨⟨some c, true⟩, entered v c session⟩ <;> rfl

/-- A session whose visit of a cursor is about to begin. -/
def started (v : VisitorId) (root : CursorId) (session : Session H σ) : Session H σ :=
  HasWorld.modifyWorld (session.modifyVisitor v fun visitor =>
    { visitor with visiting := true, changeReported := false, abortRequested := false })
    (·.hold root)

theorem start_eq (rested : (session.visitor v).visiting = false) (target : VisitTarget)
    (arguments : List Value) :
    Visitor.start behaviour calls v target arguments session =
      Visitor.tidying (Visitor.finish v (target.enter session.world).1)
        (Visitor.run behaviour calls v (target.enter session.world).1 arguments
          (started v (target.enter session.world).1
            { session with world := (target.enter session.world).2 })) := by
  rw [← Visitor.tidied_apply]
  simp only [Visitor.start, bind, EStateM.bind, get, getThe, MonadStateOf.get, get_apply, rested]
  cases target <;> rfl

end Stroll

namespace Visitor

/-- A visitor that is visiting refuses, and nothing changes. -/
theorem start_visiting (visiting : (session.visitor v).visiting = true) (target : VisitTarget)
    (arguments : List Value) :
    start behaviour calls v target arguments session = .error (.error .reentrant) session := by
  simp only [start, bind, EStateM.bind, get, getThe, MonadStateOf.get, get_apply, visiting]
  rfl

/-- What a visit makes of how it has ended: one that was stopped on request has succeeded, unless
the request has been withdrawn. -/
def absorbed (root : CursorId) : Ended H σ Value → Ended H σ Value
  | .error (.error (.aborted through)) session =>
    if session.isCancelled through then .error (.error (.aborted through)) session
    else .ok (session.world.value root) session
  | outcome => outcome

theorem run_apply (v : VisitorId) (root : CursorId) (arguments : List Value)
    (session : Session H σ) :
    run behaviour calls v root arguments session =
      absorbed root (EStateM.bind (behaviour.reset v root arguments)
        (fun _ => calls.dispatch v root) session) := rfl

/-- A visitor that has finished a visit is not visiting. -/
theorem visiting_finish (v : VisitorId) (root : CursorId) (session : Session H σ) :
    ((finish v root session).visitor v).visiting = false := by
  show ((session.modifyVisitor v fun visitor =>
    { visitor with visiting := false }).visitor v).visiting = _
  rw [session.visitor_modifyVisitor]
  split
  · rfl
  · rename_i outside
    rw [Session.visitor, Array.getElem?_eq_none (Nat.le_of_not_lt fun inside =>
      outside ⟨rfl, inside⟩)]
    rfl

end Visitor

end Calls

end CodeTree
