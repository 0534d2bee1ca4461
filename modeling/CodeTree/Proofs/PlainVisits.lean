/-
Visits that only walk. A visit answers with what is at its root cursor at the end, and its visitor
is at rest then. If the handlers do nothing but have the children of their nodes walked, and all
types are known, the visit comes to an end, and the tree is changed in one way only: the objects
that the walk comes to have been completed with the defaults that they lacked. A second visit finds
nothing to complete.
-/

import CodeTree.Proofs.Rounds

namespace CodeTree

open World

variable {H σ : Type}

variable {after before store : Store} {part root value : Value} {front : List SlotName}
  {arguments : List Value} {turns : Nat} {target : VisitTarget} {v : VisitorId}

namespace Visitor

/-! ### What a visit answers -/

variable {behaviour : Behaviour H σ} {calls : Calls H σ} {c : CursorId}
  {session after : Session H σ} {answer : Value}

theorem answer_answering {α : Type} {action : VisitAction H σ α}
    (ended : answering c action session = .ok answer after) : answer = after.world.value c := by
  simp only [answering, bind, EStateM.bind] at ended
  cases outcome : action session with
  | ok _ mid =>
    rw [outcome] at ended
    cases ended
    rfl
  | error _ _ =>
    rw [outcome] at ended
    cases ended

/-- A walk through the children of a value answers with what is at the cursor then. -/
theorem answer_traverse (ended : traverse calls v c session = .ok answer after) :
    answer = after.world.value c := by
  cases present : session.world.store.contents? (session.world.value c) with
  | none =>
    rw [traverse_plain present] at ended
    cases ended
    rfl
  | some contents =>
    cases contents with
    | array items =>
      rw [traverse_array present] at ended
      exact answer_answering ended
    | object members =>
      cases fields : session.walkedFields v (session.world.value c) with
      | error unknown =>
        rw [traverse_refused present fields] at ended
        cases ended
      | ok names =>
        rw [traverse_object present fields] at ended
        exact answer_answering ended

theorem answer_settle {declared : NodeType} {verdict : Verdict} {context : Context}
    (ended : settle calls v c declared verdict context session = .ok answer after) :
    answer = after.world.value c := by
  cases verdict with
  | skipChildren =>
    cases ended
    rfl
  | traversed =>
    cases must : context.mustTraverse with
    | true =>
      simp only [settle, must] at ended
      cases ended
    | false =>
      simp only [settle, must] at ended
      cases ended
      rfl
  | replace value =>
    simp only [settle, bind, EStateM.bind] at ended
    cases replaced : VisitAction.onWorld (Action.replaceWith c value) session with
    | error _ _ =>
      rw [replaced] at ended
      cases ended
    | ok _ mid =>
      rw [replaced] at ended
      dsimp only at ended
      cases must : context.mustTraverse with
      | false =>
        rw [must] at ended
        cases ended
        rfl
      | true =>
        rw [must] at ended
        exact answer_answering ended

theorem answer_dispatch (ended : dispatch behaviour calls v c session = .ok answer after)
    (traverses : ∀ {answer after}, calls.traverse v c session = .ok answer after →
      answer = after.world.value c) : answer = after.world.value c := by
  simp only [dispatch, bind, EStateM.bind, get, getThe, MonadStateOf.get, get_apply] at ended
  cases found : session.handler? v (session.world.value c) with
  | none =>
    rw [found] at ended
    exact traverses ended
  | some named =>
    rw [found] at ended
    dsimp only at ended
    rw [Stroll.invoke_eq] at ended
    cases outcome : behaviour.handle calls v named.2 c
      ⟨⟨some c, true⟩, Stroll.entered v c session⟩ with
    | error halt frame =>
      rw [outcome] at ended
      cases ended
    | ok verdict frame =>
      rw [outcome] at ended
      simp only [Stroll.settled] at ended
      cases settled : settle calls v c named.1 verdict frame.context frame.session with
      | error halt last =>
        rw [settled] at ended
        cases ended
      | ok result last =>
        rw [settled] at ended
        cases ended
        exact (answer_settle settled :)

theorem answer_traverse_calls
    (ended : (Visitor.calls behaviour turns).traverse v c session = .ok answer after) :
    answer = after.world.value c := by
  cases turns with
  | zero => cases ended
  | succ turns => exact answer_traverse ended

/-- A visit of a value answers with what is at the cursor then. -/
theorem answer_dispatch_calls
    (ended : (Visitor.calls behaviour turns).dispatch v c session = .ok answer after) :
    answer = after.world.value c := by
  cases turns with
  | zero => cases ended
  | succ turns => exact answer_dispatch ended answer_traverse_calls

theorem answer_run {root : CursorId}
    (dispatches : ∀ {session answer after}, calls.dispatch v root session = .ok answer after →
      answer = after.world.value root)
    (ended : run behaviour calls v root arguments session = .ok answer after) :
    answer = after.world.value root := by
  simp only [run, bind, EStateM.bind] at ended
  split at ended
  · split at ended
    · cases ended
    · cases ended
      rfl
  · split at ended
    · exact dispatches ended
    · cases ended

/-- A visit answers with what is at its root cursor at the end. -/
theorem answer_start (rested : (session.visitor v).visiting = false)
    (ended : (Visitor.calls behaviour turns).start v target arguments session = .ok answer after) :
    answer = after.world.value (target.enter session.world).1 := by
  cases turns with
  | zero => cases ended
  | succ turns =>
    have ended : start behaviour (Visitor.calls behaviour turns) v target arguments session =
      .ok answer after := ended
    rw [Stroll.start_eq behaviour _ rested] at ended
    cases outcome : run behaviour (Visitor.calls behaviour turns) v (target.enter session.world).1
      arguments (Stroll.started v (target.enter session.world).1
        { session with world := (target.enter session.world).2 }) with
    | error halt last =>
      rw [outcome] at ended
      cases ended
    | ok result last =>
      rw [outcome] at ended
      cases ended
      exact (answer_run answer_dispatch_calls outcome :)

/-- However a visit ends, the visitor is not visiting then. -/
theorem rested_start {turns : Nat} (rested : (session.visitor v).visiting = false)
    (target : VisitTarget) (arguments : List Value) :
    match (Visitor.calls behaviour turns).start v target arguments session with
    | .ok _ after => (after.visitor v).visiting = false
    | .error _ after => (after.visitor v).visiting = false := by
  cases turns with
  | zero => exact rested
  | succ turns =>
    show match start behaviour (Visitor.calls behaviour turns) v target arguments session with
    | .ok _ after => (after.visitor v).visiting = false
    | .error _ after => (after.visitor v).visiting = false
    rw [Stroll.start_eq behaviour _ rested]
    cases run behaviour (Visitor.calls behaviour turns) v (target.enter session.world).1 arguments
      (Stroll.started v (target.enter session.world).1
        { session with world := (target.enter session.world).2 }) with
    | ok _ last => exact visiting_finish v _ last
    | error _ last => exact visiting_finish v _ last

end Visitor

/-! ### Places of a store -/

namespace Store

variable {path : List SlotName} {comments : Bool}

/-- Where a walk knows all types, it still does when fields have been filled in: it comes to what it
came to before, and to bare values. -/
theorem Filled.isUnknown_of_reaches (filled : before.Filled after) (whole : before.Whole root)
    (known : ∀ path part, before.terrain.Reaches comments root path part →
      before.terrain.isUnknown part = false)
    (reached : after.terrain.Reaches comments root path part) :
    after.terrain.isUnknown part = false := by
  rcases filled.reaches_of_after whole reached with old | bare
  · have stood := Filled.known_of_whole (whole.part (part?_of_reaches old))
    have same : after.terrain.isUnknown part = before.terrain.isUnknown part := by
      rw [Terrain.isUnknown, Terrain.isUnknown, filled.type?_terrain stood]
      exact congrArg (Option.isSome · && _) (filled.inner?_type stood)
    exact same.trans (known path part old)
  · rw [Terrain.isUnknown, show after.terrain.inner? part (.key "type") = none from bare.inner? _]
    rfl

/-- What a walk over completed objects comes to lacks nothing. -/
theorem Completes.satisfied (completes : before.Completes after fun value =>
      ∃ path, before.terrain.Reaches comments root path value) (whole : before.Whole root)
    (reached : after.terrain.Reaches comments root path value) : after.lacking value = [] := by
  have filled := completes.filled
  by_contra lacks
  obtain ⟨more, object⟩ := exists_members_of_lacking lacks
  rcases filled.reaches_of_after whole reached with old | bare
  · obtain ⟨id, rfl⟩ := exists_id_of_contents? object
    obtain ⟨contents, present⟩ := Option.ne_none_iff_exists'.mp
      (whole path id (part?_of_reaches old))
    cases contents with
    | array items => cases object.symm.trans (filled.array _ _ present)
    | object members => exact lacks (completes.lacking present ⟨path, old⟩)
  · rw [lacking_of_untyped bare.type?] at lacks
    exact lacks rfl

end Store

/-! ### Visits that only walk -/

/-- What the handlers of a visitor do is to have the children of their nodes walked. When a visit
starts, at most the state changes. -/
structure Behaviour.Walks (behaviour : Behaviour H σ) (handlers : Assoc NodeType H) : Prop where
  handle : ∀ {declared handler}, handlers.get? declared = some handler → ∀ calls v c,
    behaviour.handle calls v handler c = (do
      let _ ← Handling.traverse calls v c
      return .traversed)
  reset : ∀ v c arguments (session : Session H σ), ∃ state,
    behaviour.reset v c arguments session = .ok () { session with state }

/-- All handlers walk on. -/
def Policy.walking (handlers : Assoc NodeType H) : Policy H := ⟨handlers, fun _ _ => true⟩

namespace Stroll

/-- A visit that notes nothing. -/
def unnoted (handlers : Assoc NodeType H) : Terms H σ Unit :=
  .plain (.walking handlers) ⟨fun _ => (), fun _ _ => (), fun _ _ _ => ()⟩

theorem meets_unnoted {behaviour : Behaviour H σ} {handlers : Assoc NodeType H}
    (walks : behaviour.Walks handlers) : behaviour.Meets (unnoted handlers) where
  reset v c arguments session := by
    obtain ⟨state, reset⟩ := walks.reset v c arguments session
    exact ⟨_, ⟨.withState session state, id, id⟩, rfl, reset⟩
  handle calls v handler c context session path _ declares _ _ _ _ _ := by
    obtain ⟨declared, held⟩ := declares
    have handled : behaviour.handle calls v handler c ⟨context, session⟩ =
        EStateM.bind (Handling.traverse calls v c) (fun _ => pure .traversed)
          ⟨context, session⟩ := by
      rw [walks.handle held]
      rfl
    exact .of_traverse id rfl ⟨.withState session session.state, id, id⟩ rfl handled

section Reached

variable {handlers : Assoc NodeType H} (unshared : store.Unshared root) (front : List SlotName)

include unshared

theorem entered_iff_reached (lacks : store.lacking value ≠ []) :
    (Policy.walking handlers).Entered
        ((Policy.walking handlers).positions front (store.tree root)) value ↔
      ∃ path, store.terrain.Reaches (Policy.walking handlers).walksComments root path value := by
  obtain ⟨members, object⟩ := Store.exists_members_of_lacking lacks
  obtain ⟨id, rfl⟩ := Store.exists_id_of_contents? object
  constructor
  · rintro ⟨position, member, _, same⟩
    obtain ⟨path, part, rfl, _, reached⟩ :=
      exists_of_mem_positions unshared member
    rw [Store.value_tree] at same
    subst same
    exact ⟨path, reached rfl⟩
  · rintro ⟨path, reached⟩
    refine ⟨_, (mem_positions_iff (fun _ _ => rfl) unshared (.inr rfl) front path).mpr reached, ?_,
      Store.value_tree _ _⟩
    rw [Policy.enters, Option.all_eq_true]
    exact fun _ _ => rfl

theorem known_of_reached {policy : Policy H} (known : ∀ path part,
      store.terrain.Reaches policy.walksComments root path part →
        store.terrain.isUnknown part = false) :
    (policy.positions front (store.tree root)).all Position.isKnown = true := by
  refine List.all_eq_true.mpr fun position member => ?_
  obtain ⟨path, part, rfl, _, reached⟩ := exists_of_mem_positions unshared member
  rw [Position.isKnown_iff]
  cases null : part.isNull with
  | true =>
    cases part with
    | null => rfl
    | _ => cases null
  | false =>
    have there := reached null
    rw [Store.isUnknown_tree (unshared.part (Store.part?_of_reaches there))]
    exact known path part there

end Reached

section Visit

variable {behaviour : Behaviour H σ} {session : Session H σ} (sound : Sound session.world)
  (starts : session.world.Starts target front)

include sound starts

/-- The root cursor of a visit has the value that is visited. -/
theorem value_enter : (target.enter session.world).1 < (target.enter session.world).2.cursors.size ∧
    (target.enter session.world).2.value (target.enter session.world).1 =
      target.value session.world := by
  cases starts with
  | cursor rises => exact ⟨rises.inside, rfl⟩
  | bare value =>
    obtain ⟨_, _, _, here, rises⟩ := sound.addHeldBy value
    exact ⟨rises.inside, here⟩

/-- A visit whose handlers only walk succeeds and completes what it comes to. Afterwards the visitor
can be sent to the same place again. -/
theorem completes_start {turns : Nat} (walks : behaviour.Walks (session.visitor v).handlers)
    (rested : (session.visitor v).visiting = false)
    (unshared : session.world.store.Unshared (target.value session.world))
    (whole : session.world.store.Whole (target.value session.world))
    (known : ∀ path part, session.world.store.terrain.Reaches (session.visitor v).visitsComments
      (target.value session.world) path part → session.world.store.terrain.isUnknown part = false)
    (enough : session.world.visitTurns ≤ turns) (arguments : List Value) :
    ∃ after, (Visitor.calls behaviour turns).start v target arguments session =
        .ok (target.value session.world) after ∧
      Sound after.world ∧ (after.visitor v).visiting = false ∧
      (after.visitor v).handlers = (session.visitor v).handlers ∧
      after.world.Starts target front ∧
      target.value after.world = target.value session.world ∧
      session.world.store.Completes after.world.store fun value => ∃ path,
        session.world.store.terrain.Reaches (session.visitor v).visitsComments
          (target.value session.world) path value := by
  have comments : (session.visitor v).visitsComments =
      (Policy.walking (session.visitor v).handlers).walksComments :=
    visitsComments_eq_walksComments rfl
  rw [comments] at known ⊢
  obtain ⟨origin, holder, held, before, _, passes, stays, again, ends⟩ := ends_starts rested
    sound rfl starts unshared whole enough arguments (meets_unnoted walks)
  have clear := known_of_reached unshared front known
  have finished := @Visitor.rested_start _ _ v behaviour _ turns rested target arguments
  cases outcome : (Visitor.calls behaviour turns).start v target arguments session with
  | error halt after =>
    rw [outcome] at ends
    rcases ends with ⟨_, unknown, _⟩ | ⟨_, _, _, ⟨⟩⟩
    · cases clear.symm.trans unknown
  | ok answer after =>
    rw [outcome] at ends finished
    obtain ⟨logs, _⟩ := ends
    obtain ⟨inside, value⟩ := value_enter sound starts
    obtain ⟨startsAfter, valueAfter⟩ := again after.world logs.keeps logs.held
    have answered : answer = target.value session.world :=
      (Visitor.answer_start rested outcome).trans
        (((passes.keeps.trans logs.keeps).value inside).trans value)
    refine ⟨after, by rw [answered], logs.sound, finished, ?_, startsAfter, valueAfter, ?_⟩
    · exact (logs.handlers v).trans (passes.handlers v)
    · have completes := (Store.completes_of_stays stays).trans (logs.completes clear)
      refine completes.congr fun value lacks => ?_
      rw [false_or]
      exact entered_iff_reached unshared front lacks

end Visit

end Stroll

/-- The handlers of which walks consist. -/
def Behaviour.walking : Behaviour H σ where
  handle calls v _ c := do
    let _ ← Handling.traverse calls v c
    return .traversed
  reset _ _ _ := pure ()

theorem Behaviour.walks_walking (handlers : Assoc NodeType H) :
    (walking : Behaviour H σ).Walks handlers where
  handle _ _ _ _ := rfl
  reset _ _ _ session := ⟨session.state, rfl⟩

namespace Visitor

/-- A visit whose handlers only walk, over a value in which nothing is shared and no type is
unknown, succeeds and answers with that value. Each object that it comes to keeps its entries and
gets the defaults of the fields that it lacks behind them, in the order of declaration; arrays and
all other objects stay as they are. So where nothing is lacking nothing changes, and visiting once
more changes nothing. -/
theorem start_fills_defaults {behaviour : Behaviour H σ} {v : VisitorId} {session : Session H σ}
    {target : VisitTarget} {front : List SlotName} {turns : Nat}
    (walks : behaviour.Walks (session.visitor v).handlers)
    (rested : (session.visitor v).visiting = false) (sound : Sound session.world)
    (starts : session.world.Starts target front)
    (unshared : session.world.store.Unshared (target.value session.world))
    (whole : session.world.store.Whole (target.value session.world))
    (known : ∀ path part, session.world.store.terrain.Reaches (session.visitor v).visitsComments
      (target.value session.world) path part → session.world.store.terrain.isUnknown part = false)
    (enough : session.world.visitTurns ≤ turns) (arguments : List Value) :
    ∃ after, (Visitor.calls behaviour turns).start v target arguments session =
        .ok (target.value session.world) after ∧
      target.value after.world = target.value session.world ∧
      (∀ value items, session.world.store.contents? value = some (.array items) →
        after.world.store.contents? value = some (.array items)) ∧
      (∀ value members, session.world.store.contents? value = some (.object members) →
        ∃ more added, after.world.store.contents? value = some (.object more) ∧
          more.entries = members.entries ++ added ∧
          ((∃ path, session.world.store.terrain.Reaches (session.visitor v).visitsComments
              (target.value session.world) path value) →
            session.world.store.Supplies after.world.store (session.world.store.lacking value)
              added) ∧
          ((∀ path, ¬session.world.store.terrain.Reaches (session.visitor v).visitsComments
              (target.value session.world) path value) → added = [])) ∧
      ((∀ path value, session.world.store.terrain.Reaches (session.visitor v).visitsComments
          (target.value session.world) path value → session.world.store.lacking value = []) →
        session.world.store.Stays after.world.store) ∧
      ∀ arguments turns, after.world.visitTurns ≤ turns →
        ∃ last, (Visitor.calls behaviour turns).start v target arguments after =
            .ok (target.value session.world) last ∧
          after.world.store.Stays last.world.store := by
  obtain ⟨after, ended, soundAfter, restedAfter, handlers, startsAfter, value, completes⟩ :=
    Stroll.completes_start sound starts walks rested unshared whole known enough arguments
  refine ⟨after, ended, value, ?_, ?_, ?_, ?_⟩
  · obtain ⟨_, supplied, _⟩ := completes
    exact fun _ _ => supplied.array
  · obtain ⟨wants, supplied, told⟩ := completes
    intro value members object
    obtain ⟨more, added, still, entries, supplies⟩ := supplied.object object
    obtain ⟨all, nothing⟩ := told object
    refine ⟨more, added, still, entries, fun reached => all reached ▸ supplies, fun unreached => ?_⟩
    rw [nothing (not_exists.mpr unreached)] at supplies
    cases supplies
    rfl
  · exact fun nothing => completes.stays fun value reached =>
      reached.elim fun path reached => nothing path value reached
  · intro arguments turns enough
    have comments : (after.visitor v).visitsComments = (session.visitor v).visitsComments := by
      rw [visitsComments, visitsComments, resolve?, resolve?, resolve?, resolve?, handlers]
    have filled := completes.filled
    obtain ⟨last, endedLast, _, _, _, _, _, completesLast⟩ :=
      @Stroll.completes_start _ _ front target v behaviour after soundAfter startsAfter turns
        (handlers ▸ walks) restedAfter
        (by rw [value]; exact completes.unshared unshared whole)
        (by rw [value]; exact completes.whole whole)
        (by rw [value, comments]; exact fun _ _ => filled.isUnknown_of_reaches whole known)
        enough arguments
    rw [value, comments] at completesLast
    rw [value] at endedLast
    exact ⟨last, endedLast, completesLast.stays fun _ reached =>
      reached.elim fun _ reached => completes.satisfied whole reached⟩

/-- A function without parameters, with the fields left out that have defaults and a field that is
not declared. -/
def sparseFunction : Document :=
  .nodeOf .functionExpression [("params", .array []),
    ("note", .object [("id", .null)]),
    ("body", .nodeOf .blockStatement [("body", .array [])])]

/-- The function gets the defaults of its three fields, and gets them once. -/
theorem start_sparseFunction : ∃ value store after more,
    (Store.load sparseFunction).run .empty = (value, store) ∧
    (Visitor.calls .walking 16).start 0 (.cursor 0) []
      (Session.begun [(.printable, ())] () value store) = .ok value after ∧
    after.world.store.contents? value = some (.object more) ∧
    more.entries.map Prod.fst =
      ["type", "params", "note", "body", "id", "generator", "expression"] ∧
    ∃ turns last, (Visitor.calls .walking turns).start 0 (.cursor 0) [] after = .ok value last ∧
      last.world.store.contents? value = some (.object more) := by
  let value := ((Store.load sparseFunction).run .empty).1
  let store := ((Store.load sparseFunction).run .empty).2
  have intact : store.Intact value :=
    ((Store.loaded sparseFunction (by decide +kernel) Store.empty).brings).intact value
      List.mem_cons_self
  have known (part : Value) : store.terrain.isUnknown part = false := by
    cases part with
    | composite id =>
      by_cases inside : id < store.composites.size
      · have all : ∀ id : Fin store.composites.size,
            store.terrain.isUnknown (.composite id) = false := by decide +kernel
        exact all ⟨id, inside⟩
      · have absent : store.contents? (.composite id) = none :=
          Array.getElem?_eq_none (Nat.le_of_not_lt inside)
        have nothing : store.terrain.inner? (.composite id) (.key "type") = none := by
          simp only [Store.terrain, Store.inner?, absent]
        rw [Terrain.isUnknown, nothing]
        rfl
    | _ => rfl
  have rested : ((Session.begun [(.printable, ())] () value store).visitor 0).visiting = false :=
    rfl
  obtain ⟨after, ended, _, _, objects, _, again⟩ := start_fills_defaults
    (Behaviour.walks_walking _) rested (Session.sound_begun [(.printable, ())] () value store)
    (Session.starts_begun _ _ value store) intact.unshared intact.whole
    (fun _ part _ => known part) (by decide +kernel : _ ≤ 16) []
  obtain ⟨members, object, keys⟩ : ∃ members, store.contents? value = some (.object members) ∧
      members.entries.map Prod.fst ++ (store.lacking value).map Prod.fst =
        ["type", "params", "note", "body", "id", "generator", "expression"] :=
    ⟨_, rfl, by decide +kernel⟩
  obtain ⟨more, added, still, entries, supplies, _⟩ := objects value members object
  obtain ⟨last, endedLast, stays⟩ := again [] _ (Nat.le_refl _)
  refine ⟨value, store, after, more, rfl, ended, still, ?_, _, last, endedLast, stays _ _ still⟩
  rw [entries, List.map_append, (supplies ⟨[], .here _⟩).keys]
  exact keys

end Visitor

end CodeTree
