/-
Handlers that look. A handler that only looks may ask for cursors, hold on to them, make values and
keep a journal; and it has the children of its node walked or skips them, as the node tells it to.
It may rely on something that looking and filling in defaults keep true, and it may break off at
certain positions. These are the terms that a visit goes by.
-/

import CodeTree.Proofs.Completing
import CodeTree.Proofs.Positions
import CodeTree.Proofs.Visiting

namespace CodeTree

open World

variable {H σ τ : Type}

variable {world : World} {tree : Tree} {c : CursorId} {behaviour : Behaviour H σ}
  {first others positions rest second : List Position} {names path : List SlotName}
  {items : List Value} {declared : NodeType} {policy : Policy H}

/-! ### Handlers that look -/

/-- From one session to another, at most cursors have been asked for and taken hold of, values have
been made, and the state has changed. -/
structure Session.Watches (before after : Session H σ) : Prop where
  sound : Sound before.world → Sound after.world
  keeps : before.world.Keeps after.world
  stays : before.world.store.Stays after.world.store
  held : before.world.held.Subperm after.world.held
  handlers : ∀ v, (after.visitor v).handlers = (before.visitor v).handlers

theorem Session.Watches.withState (session : Session H σ) (state : σ) :
    session.Watches { session with state } :=
  ⟨id, .refl _, .refl _, .refl _, fun _ => rfl⟩

/-- How a handler ends that skips the children of its node: it has looked and made a log of what it
found. -/
def Handling.Skips (view : σ → τ) (session : Session H σ) (log : τ)
    (result : EStateM.Result (Halt VisitError) (Frame H σ) Verdict) : Prop :=
  ∃ context after, session.Watches after ∧ view after.state = log ∧
    result = .ok .skipChildren ⟨context, after⟩

/-- How a handler ends that has the children of its node walked, after it has looked and made a log
of what it found. When they have been walked it may look again. -/
def Handling.Walks (view : σ → τ) (session : Session H σ) (log : τ) (walk : VisitAction H σ Value)
    (result : EStateM.Result (Halt VisitError) (Frame H σ) Verdict) : Prop :=
  ∃ mid, session.Watches mid ∧ view mid.state = log ∧
    match walk mid with
    | .ok _ after => ∃ verdict context last, after.Watches last ∧
        view last.state = view after.state ∧ result = .ok verdict ⟨context, last⟩ ∧
        (verdict = .traversed ∧ context.mustTraverse = false ∨ verdict = .skipChildren)
    | .error halt after => ∃ context, result = .error halt ⟨context, after⟩

/-- A behaviour that leaves the tree as it is: its handlers keep a journal and do at each node what
a policy says. -/
structure Behaviour.Observes (behaviour : Behaviour H σ) (policy : Policy H)
    (journal : Journal H σ τ) : Prop where
  reset : ∀ v c arguments (session : Session H σ), ∃ after, session.Watches after ∧
    journal.view after.state = journal.opening arguments (journal.view session.state) ∧
    behaviour.reset v c arguments session = .ok () after
  skips : ∀ calls v handler c context (session : Session H σ),
    session.world.store.Unshared (session.world.value c) →
    policy.descends handler (session.world.store.tree (session.world.value c)) = false →
    Handling.Skips journal.view session (journal.note handler ⟨session.world.names c,
        session.world.store.tree (session.world.value c)⟩ (journal.view session.state))
      (behaviour.handle calls v handler c ⟨context, session⟩)
  walks : ∀ calls v handler c context (session : Session H σ),
    session.world.store.Unshared (session.world.value c) →
    policy.descends handler (session.world.store.tree (session.world.value c)) = true →
    Handling.Walks journal.view session (journal.note handler ⟨session.world.names c,
        session.world.store.tree (session.world.value c)⟩ (journal.view session.state))
      (calls.traverse v c) (behaviour.handle calls v handler c ⟨context, session⟩)

namespace Policy

variable (policy : Policy H) {kind : Invocation H → Prop}

/-- Some call of a handler on a walk through some positions is of a kind. -/
def Invokes (kind : Invocation H → Prop) (positions : List Position) : Prop :=
  ∃ call ∈ policy.invocations positions, kind call

theorem invokes_congr (same : policy.invocations others = policy.invocations positions) :
    policy.Invokes kind others ↔ policy.Invokes kind positions := by
  rw [Invokes, same, Invokes]

theorem not_invokes_nil : ¬policy.Invokes kind [] := nofun

/-- A walk that can go on comes to the calls in either part. -/
theorem invokes_append (known : first.all Position.isKnown = true) :
    policy.Invokes kind (first ++ second) ↔ policy.Invokes kind first ∨ policy.Invokes kind second := by
  simp only [Invokes, policy.invocations_append known, List.mem_append, or_and_right, exists_or]

/-- What is called is called before the walk cannot go on. -/
theorem invokes_append_left (called : policy.Invokes kind first) :
    policy.Invokes kind (first ++ second) := by
  cases known : first.all Position.isKnown with
  | true => exact (policy.invokes_append known).mpr (.inl called)
  | false => exact (policy.invokes_congr (policy.invocations_append_of_unknown known second)).mpr called

theorem invokes_cons_some {handler : H} (found : policy.handler? tree = some (declared, handler)) :
    policy.Invokes kind (⟨path, tree⟩ :: rest) ↔
      kind ⟨declared, handler, ⟨path, tree⟩⟩ ∨ policy.Invokes kind rest := by
  simp only [Invokes, policy.invocations_cons_some found, List.mem_cons, or_and_right, exists_or,
    exists_eq_left]

end Policy

namespace Stroll

/-! ### Terms of a visit -/

/-- A session that differs from another in its handles, and in nothing that matters to a visit. -/
structure Tidied (change : List CursorId → List CursorId) (session tidied : Session H σ) :
    Prop where
  world : tidied.world = { session.world with held := change session.world.held }
  state : tidied.state = session.state
  handlers : ∀ v, (tidied.visitor v).handlers = (session.visitor v).handlers
  aborts : ∀ v, (tidied.visitor v).abortRequested = (session.visitor v).abortRequested

/-- What handlers rely on: something that holds of every world that a visit comes to, and of every
cursor that it comes to at the end of a path. -/
structure Footing where
  holds : World → Prop
  seats : World → List SlotName → CursorId → Prop

/-- What handlers rely on in one world they can rely on in another. -/
structure Footing.Stays (footing : Footing) (before after : World) : Prop where
  holds : footing.holds before → footing.holds after
  seats : ∀ {path c}, footing.seats before path c → footing.seats after path c

theorem Footing.Stays.refl (footing : Footing) (world : World) : footing.Stays world world :=
  ⟨id, id⟩

theorem Footing.Stays.trans {footing : Footing} {first second third : World}
    (left : footing.Stays first second) (right : footing.Stays second third) :
    footing.Stays first third :=
  ⟨right.holds ∘ left.holds, right.seats ∘ left.seats⟩

/-- A cursor has been asked for, and handlers can rely on it. -/
structure Footing.Steps (footing : Footing) (world : World) (path : List SlotName)
    (result : CursorId × World) : Prop extends footing.Stays world result.2 where
  seat : footing.seats result.2 path result.1

/-- What a visit that leaves the tree as it is goes by: what its handlers do at each node and what
they note, what they rely on, where they stop the visit, and what becomes of a session that has been
stopped, while certain cursors are held. -/
structure Terms (H σ τ : Type) extends Footing where
  policy : Policy H
  journal : Journal H σ τ
  stops : H → Position → Prop
  stopped : H → Position → List CursorId → Halt VisitError → Session H σ → Prop
  handles : ∀ (world : World) (held : List CursorId), toFooting.Stays world { world with held }
  element : ∀ {world : World} {path c items position}, Sound world → c < world.cursors.size →
    holds world → seats world path c →
    world.store.contents? (world.value c) = some (.array items) → position < items.length →
    toFooting.Steps world (path ++ [.index position]) (world.child c (.index position))
  field : ∀ {world : World} {path c members} (key : String), Sound world →
    c < world.cursors.size → holds world → seats world path c →
    world.store.contents? (world.value c) = some (.object members) →
    toFooting.Steps world (path ++ [.key key])
      ((world.fillField (world.value c) key).child c (.key key))
  lets : ∀ {handler position halt held heldAfter change} {session tidied : Session H σ},
    Tidied change session tidied → (∀ c ∈ change session.world.held, c ∈ session.world.held) →
    (held.Subperm session.world.held → heldAfter.Subperm (change session.world.held)) →
    stopped handler position held halt session → stopped handler position heldAfter halt tidied

namespace Terms

/-- Handlers that rely on nothing and never stop the visit. -/
def plain (policy : Policy H) (journal : Journal H σ τ) : Terms H σ τ where
  holds _ := True
  seats _ _ _ := True
  policy := policy
  journal := journal
  stops _ _ := False
  stopped _ _ _ _ _ := False
  handles _ _ := ⟨id, id⟩
  element _ _ _ _ _ _ := ⟨⟨id, id⟩, trivial⟩
  field _ _ _ _ _ _ := ⟨⟨id, id⟩, trivial⟩
  lets _ _ _ := id

variable (terms : Terms H σ τ)

/-- From one session to another, a handler has looked, and what it relies on still holds. -/
structure Looks (before after : Session H σ) : Prop extends before.Watches after where
  footing : terms.toFooting.Stays before.world after.world

/-- How the call of a handler at a position ends: it stops the visit, or it looks and makes a log of
what it found. Then it skips the children of its node or has them walked. When they have been walked
it may look again. -/
inductive Handles (session : Session H σ) (handler : H) (position : Position)
    (walk : VisitAction H σ Value) :
    EStateM.Result (Halt VisitError) (Frame H σ) Verdict → Prop
  | stops {halt : Halt VisitError} {frame : Frame H σ}
      (handlers : ∀ v, (frame.session.visitor v).handlers = (session.visitor v).handlers)
      (stopped : terms.stopped handler position session.world.held halt frame.session) :
      Handles session handler position walk (.error halt frame)
  | skips {context : Context} {after : Session H σ} (goesOn : ¬terms.stops handler position)
      (skipped : terms.policy.descends handler position.tree = false)
      (looks : terms.Looks session after)
      (log : terms.journal.view after.state =
        terms.journal.note handler position (terms.journal.view session.state)) :
      Handles session handler position walk (.ok .skipChildren ⟨context, after⟩)
  | walks {mid : Session H σ}
      {result : EStateM.Result (Halt VisitError) (Frame H σ) Verdict}
      (goesOn : ¬terms.stops handler position)
      (walked : terms.policy.descends handler position.tree = true)
      (looks : terms.Looks session mid)
      (log : terms.journal.view mid.state =
        terms.journal.note handler position (terms.journal.view session.state))
      (onward : match walk mid with
        | .ok _ after => ∃ verdict context last, terms.Looks after last ∧
            terms.journal.view last.state = terms.journal.view after.state ∧
            result = .ok verdict ⟨context, last⟩ ∧
            (verdict = .traversed ∧ context.mustTraverse = false ∨ verdict = .skipChildren)
        | .error halt after => ∃ context, result = .error halt ⟨context, after⟩) :
      Handles session handler position walk result

/-- Some handler that is called on a walk through some positions is to stop the visit. -/
def Stops : List Position → Prop :=
  terms.policy.Invokes fun call => terms.stops call.handler call.position

/-- Some handler that is called on a walk through some positions has stopped the visit. -/
structure Stopped (held : List CursorId) (positions : List Position) (before : Session H σ)
    (halt : Halt VisitError) (after : Session H σ) : Prop where
  handlers : ∀ v, (after.visitor v).handlers = (before.visitor v).handlers
  called : terms.policy.Invokes
    (fun call => terms.stopped call.handler call.position held halt after) positions

section Children

variable {terms} (sound : Sound world) (inside : c < world.cursors.size)
  (holds : terms.holds world) (seat : terms.seats world path c)

include sound inside holds seat

/-- Handlers can rely on the cursors of elements. -/
theorem steps_elements (array : world.store.contents? (world.value c) = some (.array items))
    (inRange : ∀ name ∈ names, ∃ position, name = .index position ∧ position < items.length) :
    terms.toFooting.Stays world (world.childrenAt c names).2 ∧
      List.Forall₂ (fun name => terms.seats (world.childrenAt c names).2 (path ++ [name])) names
        (world.childrenAt c names).1 := by
  induction names generalizing world with
  | nil => exact ⟨.refl _ _, .nil⟩
  | cons name rest ih =>
    obtain ⟨position, rfl, below⟩ := inRange name List.mem_cons_self
    have first := terms.element sound inside holds seat array below
    have keeps := keeps_child world c (.index position)
    obtain ⟨stays, seats⟩ := ih (sound.child inside _)
      (Nat.lt_of_lt_of_le inside keeps.size) (first.holds holds) (first.seats seat)
      (by rw [store_child, keeps.value inside]; exact array)
      fun name member => inRange name (List.mem_cons_of_mem _ member)
    exact ⟨first.toStays.trans stays, .cons (stays.seats first.seat) seats⟩

/-- Handlers can rely on the cursors of fields. -/
theorem steps_fields {members : Assoc String Value}
    (object : world.store.contents? (world.value c) = some (.object members))
    (keys : List String) : terms.toFooting.Stays world (world.fieldCursors c keys).2 ∧
      List.Forall₂ (fun name => terms.seats (world.fieldCursors c keys).2 (path ++ [name]))
        (keys.map .key) (world.fieldCursors c keys).1 := by
  induction keys generalizing world members with
  | nil => exact ⟨.refl _ _, .nil⟩
  | cons key rest ih =>
    have first := terms.field key sound inside holds seat object
    obtain ⟨more, _, objectStill, _⟩ :=
      (world.filled_fillField (world.value c) key).object _ _ object
    obtain ⟨store, filled⟩ := world.fillField_eq (world.value c) key
    rw [fieldCursors]
    rw [filled] at first objectStill ⊢
    have keeps := keeps_child { world with store } c (.key key)
    have soundFilled : Sound { world with store } := sound.withStore store
    obtain ⟨stays, seats⟩ := ih (soundFilled.child inside _)
      (Nat.lt_of_lt_of_le inside keeps.size) (first.holds holds) (first.seats seat)
      (by rw [store_child, keeps.value inside]; exact objectStill)
    exact ⟨first.toStays.trans stays, .cons (stays.seats first.seat) seats⟩

end Children

end Terms

end Stroll

/-- A behaviour that goes by certain terms. -/
structure Behaviour.Meets (behaviour : Behaviour H σ) (terms : Stroll.Terms H σ τ) : Prop where
  reset : ∀ v c arguments (session : Session H σ), ∃ after, terms.Looks session after ∧
    terms.journal.view after.state =
      terms.journal.opening arguments (terms.journal.view session.state) ∧
    behaviour.reset v c arguments session = .ok () after
  handle : ∀ calls v handler c context (session : Session H σ) path,
    (session.visitor v).handlers = terms.policy.handlers →
    (∃ declared, terms.policy.handlers.get? declared = some handler) → Sound session.world →
    terms.holds session.world → terms.seats session.world path c → session.world.Rises path c →
    session.world.store.Unshared (session.world.value c) →
    terms.Handles session handler ⟨path, session.world.store.tree (session.world.value c)⟩
      (calls.traverse v c) (behaviour.handle calls v handler c ⟨context, session⟩)

/-- A behaviour that only looks relies on nothing and never stops the visit. -/
theorem Behaviour.Observes.meets {journal : Journal H σ τ}
    (observes : behaviour.Observes policy journal) : behaviour.Meets (.plain policy journal) where
  reset v c arguments session := by
    obtain ⟨after, watches, log, reset⟩ := observes.reset v c arguments session
    exact ⟨after, ⟨watches, id, id⟩, log, reset⟩
  handle calls v handler c context session path _ _ sound _ _ rises unshared := by
    cases descends : policy.descends handler
        (session.world.store.tree (session.world.value c)) with
    | false =>
      obtain ⟨_, after, watches, log, result⟩ :=
        observes.skips calls v handler c context session unshared descends
      rw [rises.names_eq sound] at log
      rw [result]
      exact .skips id descends ⟨watches, id, id⟩ log
    | true =>
      obtain ⟨mid, watches, log, walk⟩ :=
        observes.walks calls v handler c context session unshared descends
      rw [rises.names_eq sound] at log
      refine .walks id descends ⟨watches, id, id⟩ log ?_
      cases outcome : calls.traverse v c mid with
      | ok _ after =>
        rw [outcome] at walk
        obtain ⟨verdict, context, last, looks, same, result, decided⟩ := walk
        exact ⟨verdict, context, last, ⟨looks, id, id⟩, same, result, decided⟩
      | error halt after =>
        rw [outcome] at walk
        exact walk

/-- The tree at a cursor of a session. -/
abbrev Session.treeAt (session : Session H σ) (c : CursorId) : Tree :=
  session.world.store.tree (session.world.value c)

end CodeTree
