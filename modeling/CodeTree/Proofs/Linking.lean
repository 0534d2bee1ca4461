/-
Two runs side by side, of which the second carries something along with its state. A link tells what
holds of the sessions of two such runs. Where the runs take the same steps, and calls that are
linked, they stay linked: through the loops over children, the walk through the children of a value,
the plans of handlers, and what these decide.
-/

import CodeTree.Proofs.DispatchLog
import CodeTree.Proofs.Plans

namespace CodeTree

open World

variable {H σ τ γ α β : Type}

/-- A change of a visitor that is the same whatever contexts the visitor keeps. -/
def Visitor.Flags (change : Visitor H → Visitor H) : Prop :=
  ∀ visitor pool, change { visitor with pool } = { change visitor with pool }

theorem Session.visitor_unpooled (session : Session H σ) (v : VisitorId) :
    session.unpooled.visitor v = { session.visitor v with pool := [] } := by
  rw [visitor, visitor, unpooled, Array.getElem?_map]
  cases session.visitors[v]? <;> rfl

/-- Handlers are there only for visitors that have been built. -/
theorem Session.inside_of_handler? {session : Session H σ} {v : VisitorId} {value : Value}
    {found : NodeType × H} (handler : session.handler? v value = some found) :
    v < session.visitors.size := by
  by_contra outside
  have absent : session.visitor v = default := by
    rw [Session.visitor, Array.getElem?_eq_none (Nat.le_of_not_lt outside)]
    rfl
  simp only [Session.handler?, absent] at handler
  obtain ⟨type, _, handler⟩ := Option.bind_eq_some_iff.mp handler
  obtain ⟨declared, _, handler⟩ := Option.bind_eq_some_iff.mp handler
  cases handler

/-- Two runs have ended alike: with the same answer or the same error, in sessions that are related,
or with the same fault. -/
inductive EndsAlike (related : Session H σ → Session H τ → Prop) :
    Ended H σ α → Ended H τ α → Prop where
  | ok {answer : α} {first second} (holds : related first second) :
      EndsAlike related (.ok answer first) (.ok answer second)
  | error {cause first second} (holds : related first second) :
      EndsAlike related (.error (.error cause) first) (.error (.error cause) second)
  | fault {fault first second} :
      EndsAlike related (.error (.fault fault) first) (.error (.fault fault) second)
  | outOfTurns {first second} :
      EndsAlike related (.error .outOfTurns first) (.error .outOfTurns second)

namespace EndsAlike

variable {related outer : Session H σ → Session H τ → Prop} {result : Ended H σ α}
  {other : Ended H τ α}

theorem imp (weaken : ∀ {first second}, related first second → outer first second)
    (ends : EndsAlike related result other) : EndsAlike outer result other := by
  cases ends with
  | ok holds => exact .ok (weaken holds)
  | error holds => exact .error (weaken holds)
  | fault => exact .fault
  | outOfTurns => exact .outOfTurns

theorem halt {first : Session H σ} {second : Session H τ} (holds : related first second)
    (halt : Halt VisitError) :
    EndsAlike related (.error halt first : Ended H σ α) (.error halt second) := by
  cases halt with
  | error cause => exact .error holds
  | fault cause => exact .fault
  | outOfTurns => exact .outOfTurns

theorem tidying {tidy : Session H σ → Session H σ} {otherTidy : Session H τ → Session H τ}
    (tidied : ∀ {first second}, related first second → outer (tidy first) (otherTidy second))
    (ends : EndsAlike related result other) :
    EndsAlike outer (Visitor.tidying tidy result) (Visitor.tidying otherTidy other) := by
  cases ends with
  | ok holds => exact .ok (tidied holds)
  | error holds => exact .error (tidied holds)
  | fault => exact .fault
  | outOfTurns => exact .outOfTurns

end EndsAlike

/-- What holds of the sessions of two runs as long as these go on. -/
abbrev Link (H σ γ : Type) := Session H σ → Session H (σ × γ) → Prop

namespace Link

/-- Two actions keep runs linked. -/
def Keeps (link : Link H σ γ) (action : VisitAction H σ α) (other : VisitAction H (σ × γ) α) :
    Prop :=
  ∀ ⦃first second⦄, link first second → EndsAlike link (action first) (other second)

variable {link : Link H σ γ} {calls : Calls H σ} {others : Calls H (σ × γ)} {v : VisitorId}
  {c : CursorId}

/-- Calls back into the walk that keep runs linked. -/
structure Relates (link : Link H σ γ) (calls : Calls H σ) (others : Calls H (σ × γ)) : Prop where
  traverse : ∀ v c, link.Keeps (calls.traverse v c) (others.traverse v c)
  dispatch : ∀ v c, link.Keeps (calls.dispatch v c) (others.dispatch v c)
  start : ∀ v target arguments,
    link.Keeps (calls.start v target arguments) (others.start v target arguments)

theorem Relates.perform (relates : link.Relates calls others) (way : Way) :
    link.Keeps (way.perform calls) (way.perform others) := by
  cases way with
  | traverse v c => exact relates.traverse v c
  | visit v c => exact relates.dispatch v c
  | start v target arguments => exact relates.start v target arguments

/-- Runs that are linked differ by what the second carries along with its state, and by the contexts
that visitors keep. -/
structure Carries (link : Link H σ γ) : Prop where
  seen : ∀ {first second}, link first second → second.unpooled.plain = first.unpooled
  changes : ∀ {first second}, link first second → ∀ world state,
    link { first with world, state } { second with world, state := (state, second.state.2) }
  flagged : ∀ {first second}, link first second → ∀ v {change}, Visitor.Flags change →
    link (first.modifyVisitor v change) (second.modifyVisitor v change)
  builds : ∀ {first second}, link first second → ∀ handlers,
    link (first.addVisitor (.ofHandlers handlers)).2 (second.addVisitor (.ofHandlers handlers)).2

/-! ### Steps -/

section Steps

variable {action : VisitAction H σ α} {other : VisitAction H (σ × γ) α}

theorem keeps_pure (result : α) : link.Keeps (pure result) (pure result) :=
  fun _ _ => .ok

theorem keeps_throw (halt : Halt VisitError) :
    link.Keeps (throw halt : VisitAction H σ α) (throw halt) :=
  fun _ _ linked => .halt linked halt

theorem Keeps.bind {next : α → VisitAction H σ β} {otherNext : α → VisitAction H (σ × γ) β}
    (keeps : link.Keeps action other)
    (onward : ∀ result, link.Keeps (next result) (otherNext result)) :
    link.Keeps (action >>= next) (other >>= otherNext) := by
  intro first second linked
  have ends := keeps linked
  show EndsAlike link (EStateM.bind action next first) (EStateM.bind other otherNext second)
  rw [EStateM.bind, EStateM.bind]
  generalize action first = result at ends
  generalize other second = otherResult at ends
  cases ends with
  | ok linked => exact onward _ linked
  | error linked => exact .error linked
  | fault => exact .fault
  | outOfTurns => exact .outOfTurns

theorem Keeps.attempt (keeps : link.Keeps action other) :
    link.Keeps (attempt action) (attempt other) := by
  intro first second linked
  have ends := keeps linked
  rw [CodeTree.attempt, CodeTree.attempt]
  generalize action first = result at ends
  generalize other second = otherResult at ends
  cases ends with
  | ok linked => exact .ok linked
  | error linked => exact .ok linked
  | fault => exact .fault
  | outOfTurns => exact .outOfTurns

end Steps

section Carries

variable (carries : link.Carries) {first : Session H σ} {second : Session H (σ × γ)}

include carries

section Linked

variable (linked : link first second)

include linked

theorem Carries.world : second.world = first.world := congrArg Session.world (carries.seen linked)

theorem Carries.withWorld (world : World) : link { first with world } { second with world } := by
  have state : second.state.1 = first.state := congrArg Session.state (carries.seen linked)
  have changed := carries.changes linked world first.state
  rw [← state] at changed ⊢
  exact changed

theorem Carries.modifyWorld (change : World → World) :
    link (HasWorld.modifyWorld first change) (HasWorld.modifyWorld second change) := by
  have same : HasWorld.modifyWorld second change =
      { second with world := change first.world } := by
    rw [← carries.world linked]
    rfl
  rw [same]
  exact carries.withWorld linked _

theorem Carries.visitor (v : VisitorId) :
    { second.visitor v with pool := [] } = { first.visitor v with pool := [] } := by
  have visitors : second.unpooled.visitors = first.unpooled.visitors :=
    congrArg Session.visitors (carries.seen linked)
  rw [← second.visitor_unpooled, ← first.visitor_unpooled, Session.visitor, Session.visitor,
    visitors]

theorem Carries.handlers (v : VisitorId) :
    (second.visitor v).handlers = (first.visitor v).handlers := by
  have same := congrArg Visitor.handlers (carries.visitor linked v)
  exact same

theorem Carries.walkedFields (value : Value) :
    second.walkedFields v value = first.walkedFields v value := by
  rw [Session.walkedFields, Session.walkedFields, carries.world linked, Visitor.visitsComments,
    Visitor.visitsComments, Visitor.resolve?, Visitor.resolve?, Visitor.resolve?,
    Visitor.resolve?, carries.handlers linked]

theorem Carries.handler? (value : Value) : second.handler? v value = first.handler? v value := by
  rw [Session.handler?, Session.handler?, carries.world linked]
  simp only [Visitor.resolve?, carries.handlers linked]

theorem Carries.isCancelled (v : VisitorId) : second.isCancelled v = first.isCancelled v := by
  have same := congrArg Visitor.abortRequested (carries.visitor linked v)
  exact congrArg not same

end Linked

theorem Carries.keeps_answering {action : VisitAction H σ α} {other : VisitAction H (σ × γ) α}
    (keeps : link.Keeps action other) :
    link.Keeps (Visitor.answering c action) (Visitor.answering c other) := by
  refine keeps.bind fun _ first second linked => ?_
  show EndsAlike link (.ok (first.world.value c) first) (.ok (second.world.value c) second)
  rw [carries.world linked]
  exact .ok linked

theorem Carries.keeps_onWorld (action : Action α) :
    link.Keeps (VisitAction.onWorld action) (VisitAction.onWorld action) := by
  intro first second linked
  simp only [VisitAction.onWorld, carries.world linked]
  cases action first.world with
  | ok result world => exact .ok (carries.withWorld linked world)
  | error halt world => exact .halt (carries.withWorld linked world) _

theorem Carries.keeps_send (signal : Signal) :
    link.Keeps (modify signal.send) (modify signal.send) := by
  cases signal with
  | report v | abort v | cancel v =>
    exact fun _ _ linked => .ok (carries.flagged linked v fun _ _ => rfl)

theorem Carries.keeps_build (handlers : List (NodeType × H)) :
    link.Keeps (modifyGet (·.addVisitor (.ofHandlers handlers)))
      (modifyGet (·.addVisitor (.ofHandlers handlers))) := by
  intro first second linked
  have size : second.visitors.size = first.visitors.size := by
    have same := congrArg (·.visitors.size) (carries.seen linked)
    simp only [Session.plain, Session.unpooled, Array.size_map] at same
    exact same
  show EndsAlike link (.ok first.visitors.size _) (.ok second.visitors.size _)
  rw [size]
  exact .ok (carries.builds linked handlers)

/-! ### Loops -/

section Loops

variable {visit : CursorId → VisitAction H σ Unit}
  {otherVisit : CursorId → VisitAction H (σ × γ) Unit}
  (keeps : ∀ c, link.Keeps (visit c) (otherVisit c))

include keeps

omit carries in
theorem keeps_forM (cs : List CursorId) : link.Keeps (cs.forM visit) (cs.forM otherVisit) := by
  induction cs with
  | nil => exact keeps_pure ()
  | cons c cs ih => exact (keeps c).bind fun _ => ih

/-- After each turn a cursor is let go, and after a failure all that are left. -/
theorem Carries.keeps_turns (cs : List CursorId) :
    link.Keeps (HasWorld.turns visit cs) (HasWorld.turns otherVisit cs) := by
  induction cs with
  | nil => exact keeps_pure ()
  | cons c cs ih =>
    intro first second linked
    have ends := keeps c linked
    rw [HasWorld.turns, HasWorld.turns]
    dsimp only
    generalize visit c first = result at ends
    generalize otherVisit c second = other at ends
    cases ends with
    | ok linked => exact ih (carries.modifyWorld linked _)
    | error linked => exact .error (carries.modifyWorld linked _)
    | fault => exact .fault
    | outOfTurns => exact .outOfTurns

end Loops

/-! ### Walks -/

/-- The walk through the children of a value, if the visits of children keep runs linked. -/
theorem Carries.keeps_traverse (keeps : ∀ d, link.Keeps (calls.dispatch v d) (others.dispatch v d))
    (c : CursorId) : link.Keeps (Visitor.traverse calls v c) (Visitor.traverse others v c) := by
  have turns (d : CursorId) : link.Keeps (Visitor.turn calls v d) (Visitor.turn others v d) :=
    (keeps d).bind fun _ => keeps_pure ()
  intro first second linked
  have world := carries.world linked
  cases present : first.world.store.contents? (first.world.value c) with
  | none =>
    rw [Visitor.traverse_plain present, Visitor.traverse_plain (world ▸ present), world]
    exact .ok linked
  | some contents =>
    cases contents with
    | array items =>
      rw [Visitor.traverse_array present, Visitor.traverse_array (world ▸ present), world]
      exact carries.keeps_answering (carries.keeps_turns turns _) (carries.withWorld linked _)
    | object members =>
      have same := @Carries.walkedFields _ _ _ _ v carries _ _ linked (first.world.value c)
      cases walked : first.walkedFields v (first.world.value c) with
      | error unknown =>
        rw [Visitor.traverse_refused present walked, Visitor.traverse_refused (world ▸ present)
          (world ▸ same.trans walked)]
        exact .error linked
      | ok names =>
        rw [Visitor.traverse_object present walked, Visitor.traverse_object (world ▸ present)
          (world ▸ same.trans walked), world]
        refine carries.keeps_answering (fun _ _ linked => ?_) (carries.withWorld linked _)
        rw [Visitor.ensuring_apply, Visitor.ensuring_apply]
        exact (keeps_forM turns _ linked).tidying (carries.modifyWorld · _)

/-- What a handler has decided is carried out. -/
theorem Carries.keeps_conclude (keeps : link.Keeps (calls.traverse v c) (others.traverse v c))
    (declared : NodeType) (outcome : Verdict × Bool) :
    link.Keeps (Visitor.conclude calls v c declared outcome)
      (Visitor.conclude others v c declared outcome) := by
  have answer : link.Keeps (Visitor.answering c (pure () : VisitAction H σ Unit))
      (Visitor.answering c (pure ())) := carries.keeps_answering (keeps_pure ())
  obtain ⟨verdict, called⟩ := outcome
  cases verdict with
  | traversed =>
    cases called with
    | true => exact answer
    | false => exact keeps_throw _
  | skipChildren => exact answer
  | replace value =>
    refine (carries.keeps_onWorld _).bind fun _ => ?_
    cases called with
    | true => exact answer
    | false => exact carries.keeps_answering keeps

/-- The plan of a handler. -/
theorem Carries.keeps_carried (relates : link.Relates calls others) (plan : Plan H σ)
    (called : Bool) :
    link.Keeps (plan.perform calls called) (plan.carried.perform others called) := by
  induction plan generalizing called with
  | decide verdict => exact keeps_pure _
  | fail cause => exact keeps_throw _
  | crash fault => exact keeps_throw _
  | look next ih =>
    intro first second linked
    show EndsAlike link ((next first.unpooled).perform calls called first)
      ((next second.unpooled.plain).carried.perform others called second)
    rw [carries.seen linked]
    exact ih _ called linked
  | change world state next ih =>
    exact fun _ _ linked => ih called (carries.changes linked world state)
  | send signal next ih =>
    exact (carries.keeps_send signal).bind fun _ => ih called
  | build handlers next ih =>
    exact (carries.keeps_build handlers).bind fun v => ih v called
  | call way next ih =>
    exact (relates.perform way).attempt.bind fun answer => ih answer _

/-! ### Visits within visits -/

theorem Carries.keeps_run {behaviour : Behaviour H σ} {other : Behaviour H (σ × γ)}
    {root : CursorId} {arguments : List Value}
    (reset : link.Keeps (behaviour.reset v root arguments) (other.reset v root arguments))
    (dispatch : link.Keeps (calls.dispatch v root) (others.dispatch v root)) :
    link.Keeps (Visitor.run behaviour calls v root arguments)
      (Visitor.run other others v root arguments) := by
  intro first second linked
  have ends : EndsAlike link
      (EStateM.bind (behaviour.reset v root arguments) (fun _ => calls.dispatch v root) first)
      (EStateM.bind (other.reset v root arguments) (fun _ => others.dispatch v root) second) :=
    reset.bind (fun _ => dispatch) linked
  rw [Visitor.run_apply, Visitor.run_apply]
  generalize EStateM.bind (behaviour.reset v root arguments) _ first = result at ends ⊢
  generalize EStateM.bind (other.reset v root arguments) _ second = otherResult at ends ⊢
  cases ends with
  | ok linked => exact .ok linked
  | @error cause _ _ linked =>
    cases cause with
    | aborted through =>
      simp only [Visitor.absorbed]
      rw [carries.isCancelled linked, carries.world linked]
      split
      · exact .error linked
      · exact .ok linked
    | _ => exact .error linked
  | fault => exact .fault
  | outOfTurns => exact .outOfTurns

/-- A visit starts alike whether or not something is carried along. -/
theorem Carries.keeps_reset (table : Table H σ) (root : CursorId) (arguments : List Value) :
    link.Keeps ((Behaviour.ofTable table).reset v root arguments)
      ((Behaviour.ofTable table.carried).reset v root arguments) := by
  intro first second linked
  simp only [Behaviour.ofTable, Table.carried]
  rw [carries.seen linked]
  cases table.opening v root arguments first.unpooled with
  | error fault => exact .fault
  | ok opened => exact .ok (carries.changes linked opened.1 opened.2)

/-- A visit of its own. -/
theorem Carries.keeps_start (table : Table H σ)
    (dispatch : ∀ root, link.Keeps (calls.dispatch v root) (others.dispatch v root))
    (target : VisitTarget) (arguments : List Value) :
    link.Keeps (Visitor.start (.ofTable table) calls v target arguments)
      (Visitor.start (.ofTable table.carried) others v target arguments) := by
  intro first second linked
  have visiting : (second.visitor v).visiting = (first.visitor v).visiting := by
    have same := congrArg Visitor.visiting (carries.visitor linked v)
    exact same
  cases rested : (first.visitor v).visiting with
  | true =>
    rw [Visitor.start_visiting _ _ rested, Visitor.start_visiting _ _ (visiting.trans rested)]
    exact .error linked
  | false =>
    rw [Stroll.start_eq _ _ rested, Stroll.start_eq _ _ (visiting.trans rested),
      carries.world linked]
    have begins : Visitor.Flags fun visitor : Visitor H =>
        { visitor with visiting := true, changeReported := false, abortRequested := false } :=
      fun _ _ => rfl
    have finishes : Visitor.Flags fun visitor : Visitor H => { visitor with visiting := false } :=
      fun _ _ => rfl
    refine (carries.keeps_run (carries.keeps_reset table _ _) (dispatch _) ?_).tidying ?_
    · exact carries.modifyWorld (carries.flagged (carries.withWorld linked _) v begins) _
    · exact fun linked => carries.modifyWorld (carries.flagged linked v finishes) _

end Carries

end Link

end CodeTree
