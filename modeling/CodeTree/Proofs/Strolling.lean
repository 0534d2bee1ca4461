/-
Visits that leave the tree as it is. With handlers that only look, a visit goes through the positions
of the tree in document order and calls the handler at each position that has one, before anything
below it is come to.
-/

import CodeTree.Proofs.Turns

namespace CodeTree

open World

variable {H σ τ : Type}

variable {origin : Store} {value : Value} {c : CursorId} {behaviour : Behaviour H σ}
  {held : List CursorId} {positions : List Position} {path : List SlotName} {turns : Nat}
  {declared : NodeType} {after before mid : Session H σ} {v : VisitorId}

namespace Stroll

variable {terms : Terms H σ τ}

/-- A change of a visitor that leaves its handlers and its wish to stop, and of the handles. -/
theorem tidied_modifyVisitor (v : VisitorId) {change : Visitor H → Visitor H}
    (handlers : ∀ visitor, (change visitor).handlers = visitor.handlers)
    (aborts : ∀ visitor, (change visitor).abortRequested = visitor.abortRequested)
    {handle : World → World} {heldChange : List CursorId → List CursorId}
    (handles : ∀ world, handle world = { world with held := heldChange world.held })
    (session : Session H σ) :
    Tidied heldChange session (HasWorld.modifyWorld (session.modifyVisitor v change) handle) := by
  have keeps {α : Type} {field : Visitor H → α}
      (same : ∀ visitor, field (change visitor) = field visitor) (other : VisitorId) :
      field ((session.modifyVisitor v change).visitor other) = field (session.visitor other) := by
    rw [session.visitor_modifyVisitor]
    split
    · exact same _
    · rfl
  exact ⟨handles session.world, rfl, keeps handlers, keeps aborts⟩

/-- Opening a context holds its cursor. -/
theorem tidied_entered (v : VisitorId) (c : CursorId) (session : Session H σ) :
    Tidied (c :: ·) session (entered v c session) := by
  refine tidied_modifyVisitor v ?_ ?_ ?_ session <;> exact fun _ => rfl

/-- Closing a context lets its cursor go. -/
theorem tidied_closeContext (v : VisitorId) (c : CursorId) (context : Context)
    (session : Session H σ) :
    Tidied (·.erase c) session (Visitor.closeContext v c context session) := by
  refine tidied_modifyVisitor v ?_ ?_ ?_ session <;> exact fun _ => rfl

/-- Looking changes nothing that a visit has to do. -/
theorem Faces.looks (faces : Faces terms v turns before path c)
    (looks : terms.Looks before after) : Faces terms v turns after path c := by
  have spares : before.world.store.Spares after.world.store (before.world.value c) :=
    looks.stays.spares faces.whole
  refine ⟨looks.sound faces.sound, looks.footing.holds faces.holds, looks.footing.seats faces.seat,
    (looks.handlers v).trans faces.handlers,
    faces.rises.keeps faces.sound looks.keeps fun d member => looks.held.subset member, ?_, ?_,
    ?_⟩ <;> rw [looks.keeps.value faces.rises.inside]
  · exact spares.unshared faces.unshared
  · exact spares.whole faces.whole
  · exact spares.affords faces.affords

theorem passes_of_looks (sound : Sound before.world)
    (looks : terms.Looks before after) : Passes terms before after :=
  ⟨looks.sound sound, looks.footing, looks.keeps, looks.handlers⟩

/-- Looking when a visit has come to an end. -/
theorem Ends.looks {α β : Type} {last : Session H σ} {answer : α} {other : β}
    (ends : Ends terms origin value held positions before (.ok answer after))
    (looks : terms.Looks after last)
    (log : terms.journal.view last.state = terms.journal.view after.state) :
    Ends terms origin value held positions before (.ok other last) := by
  obtain ⟨logs, known⟩ := ends
  exact ⟨⟨logs.toPasses.trans (passes_of_looks logs.sound looks),
    logs.held.trans looks.held, logs.confined.stays looks.stays, log.trans logs.log, logs.goesOn,
    fun clear => (logs.completes clear).stays_after looks.stays⟩, known⟩

section Invoke

variable (meets : behaviour.Meets terms)
  (traverses : Traverses behaviour terms v turns) (faces : Faces terms v (turns + 1) before path c)

include faces

/-- A cursor is held while its handler runs. -/
theorem Faces.entered : Passes terms before (entered v c before) ∧
    Faces terms v (turns + 1) (entered v c before) path c := by
  have tidy := tidied_entered v c before
  have inside : ∀ d ∈ c :: before.world.held, d < before.world.cursors.size :=
    List.forall_mem_cons.mpr ⟨faces.rises.inside, fun d member => faces.sound.held member⟩
  have passes : Passes terms before _ := tidy.passes faces.sound inside
  refine ⟨passes, passes.sound, passes.footing.holds faces.holds, passes.footing.seats faces.seat,
    (passes.handlers v).trans faces.handlers, ?_, faces.unshared, faces.whole, faces.affords⟩
  exact faces.rises.keeps faces.sound passes.keeps fun d member => List.mem_cons_of_mem _ member

section Handler

variable {handler : H} (found : terms.policy.handler? (before.treeAt c) = some (declared, handler))
  (goesOn : ¬terms.stops handler ⟨path, before.treeAt c⟩)
  (looks : terms.Looks (Stroll.entered v c before) mid)
  (log : terms.journal.view mid.state =
    terms.journal.note handler ⟨path, before.treeAt c⟩ (terms.journal.view before.state))

include found goesOn looks log

/-- A handler that has looked has come to its own position. -/
theorem Faces.noted : Passes terms before mid ∧
      terms.journal.view mid.state = terms.journal.record terms.policy [⟨path, before.treeAt c⟩]
        (terms.journal.view before.state) ∧
      ¬terms.Stops [⟨path, before.treeAt c⟩] ∧
      [⟨path, before.treeAt c⟩].all Position.isKnown = true := by
  obtain ⟨passes, facesInside⟩ := faces.entered
  refine ⟨passes.trans (passes_of_looks facesInside.sound looks), ?_, fun stops => ?_, ?_⟩
  · rw [log, terms.journal.record_cons_some terms.policy found]
    rfl
  · exact ((terms.policy.invokes_cons_some found).mp stops).elim goesOn terms.policy.not_invokes_nil
  · rw [List.all_cons, terms.policy.isKnown_of_handler? found path]
    rfl

/-- A handler that skips the children of its node goes no further. -/
theorem ends_skipped (skipped : terms.policy.descends handler (before.treeAt c) = false)
    {answer : Value} :
    Ends terms before.world.store (before.world.value c) (c :: before.world.held)
      [⟨path, before.treeAt c⟩] before (.ok answer mid) := by
  obtain ⟨passes, logged, unstopped, known⟩ := faces.noted found goesOn looks log
  refine ⟨⟨passes, looks.held, (Store.Confined.refl _ _).stays looks.stays, logged, unstopped,
    fun _ => ?_⟩, known⟩
  refine (Store.completes_of_stays looks.stays).congr fun value _ => iff_of_false id ?_
  rintro ⟨position, member, enters, _⟩
  cases List.mem_singleton.mp member
  rw [Policy.enters, found, Option.all_some, skipped] at enters
  cases enters

include traverses

/-- What comes after a handler has looked is told from its own position on. -/
theorem ends_walked (walked : terms.policy.descends handler (before.treeAt c) = true) :
    Ends terms before.world.store (before.world.value c) (c :: before.world.held)
      (⟨path, before.treeAt c⟩ :: terms.policy.below path (before.treeAt c)) before
      ((Visitor.calls behaviour turns).traverse v c mid) := by
  obtain ⟨_, facesInside⟩ := faces.entered
  obtain ⟨passes, logged, unstopped, known⟩ := faces.noted found goesOn looks log
  have spares : before.world.store.Spares mid.world.store (before.world.value c) :=
    looks.stays.spares faces.whole
  have value : mid.world.value c = before.world.value c :=
    looks.keeps.value facesInside.rises.inside
  obtain ⟨start, passesOn, same, completes, ends⟩ := traverses (facesInside.looks looks)
  have named := known
  rw [List.all_cons, List.all_nil, Bool.and_true] at named
  rw [value, spares.tree faces.unshared, onward, Position.isKnown_iff.mp named,
    if_neg Bool.false_ne_true] at ends
  rw [value] at completes
  have enters : terms.policy.enters (before.treeAt c) = true := by
    rw [Policy.enters, found, Option.all_some]
    exact walked
  refine (ends.since looks.stays faces.whole looks.held).prepend (passes.trans passesOn) known
    (same.trans logged) unstopped ?_
  refine ((Store.completes_of_stays looks.stays).trans completes).congr fun other _ => ?_
  rw [terms.policy.entered_cons, false_or, or_iff_left (terms.policy.not_entered_nil other),
    and_iff_right enters, Store.value_tree, eq_comm]

omit goesOn looks log in
include meets in
/-- The handler of a node is called before anything below the node is come to. -/
theorem ends_invoke :
    Ends terms before.world.store (before.world.value c) before.world.held
      (terms.policy.positions path (before.treeAt c)) before
      (Visitor.invoke behaviour (Visitor.calls behaviour turns) v c declared handler before) := by
  obtain ⟨_, facesInside⟩ := faces.entered
  have declares := terms.policy.get?_of_handler? found
  have called := meets.handle (Visitor.calls behaviour turns) v handler c ⟨some c, true⟩ _ path
    facesInside.handlers ⟨_, declares⟩ facesInside.sound facesInside.holds facesInside.seat facesInside.rises
    facesInside.unshared
  rw [invoke_eq, terms.policy.positions_eq, Policy.enters, found, Option.all_some]
  refine Ends.tidying ?_ (tidied_closeContext v c _) (fun _ => List.mem_of_mem_erase)
    fun subperm => @subperm_foldl_erase [c] _ _ subperm
  generalize behaviour.handle (Visitor.calls behaviour turns) v handler c
    ⟨⟨some c, true⟩, Stroll.entered v c before⟩ = result at called ⊢
  cases called with
  | stops handlers stopped =>
    exact .inr ⟨fun w => (handlers w).trans ((tidied_entered v c before).handlers w),
      (terms.policy.invokes_cons_some found).mpr (.inl stopped)⟩
  | skips goesOn skipped looks log =>
    have skipped : terms.policy.descends handler (before.treeAt c) = false := skipped
    rw [skipped]
    exact ends_skipped faces found goesOn looks log skipped
  | @walks mid _ goesOn walked looks log onward =>
    have walked : terms.policy.descends handler (before.treeAt c) = true := walked
    rw [walked, if_pos rfl]
    have ends := ends_walked traverses faces found goesOn looks log walked
    cases outcome : (Visitor.calls behaviour turns).traverse v c mid with
    | ok answer after =>
      rw [outcome] at onward ends
      obtain ⟨verdict, context, last, looksAgain, same, rfl, decided⟩ := onward
      rcases decided with ⟨rfl, dealt⟩ | rfl
      · simp only [settled, Visitor.settle, dealt]
        exact ends.looks looksAgain same
      · exact ends.looks looksAgain same
    | error halt after =>
      rw [outcome] at onward ends
      obtain ⟨context, rfl⟩ := onward
      exact ends

end Handler

include meets traverses in
/-- A value is given to its handler, if it has one, and else its children are walked. -/
theorem ends_dispatch :
    Ends terms before.world.store (before.world.value c) before.world.held
      (terms.policy.positions path (before.treeAt c)) before
      (Visitor.dispatch behaviour (Visitor.calls behaviour turns) v c before) := by
  have handler : before.handler? v (before.world.value c) =
      terms.policy.handler? (before.treeAt c) := by
    simp only [Session.handler?, Visitor.resolve?, faces.handlers, Policy.handler?,
      Policy.declared?, Store.type?_tree faces.unshared]
  simp only [Visitor.dispatch, bind, EStateM.bind, get, getThe, MonadStateOf.get, get_apply]
  rw [handler]
  cases found : terms.policy.handler? (before.treeAt c) with
  | some named =>
    obtain ⟨declared, handler⟩ := named
    exact ends_invoke meets traverses faces found
  | none =>
    obtain ⟨start, passes, same, completes, ends⟩ := traverses faces
    have enters : terms.policy.enters (before.treeAt c) = true := by
      rw [Policy.enters, found, Option.all_none]
    rw [terms.policy.positions_eq, enters, if_pos rfl]
    have own (other : Value) : other = before.world.value c ↔ terms.policy.Entered
        [⟨path, before.treeAt c⟩] other := by
      rw [terms.policy.entered_cons, or_iff_left (terms.policy.not_entered_nil other),
        and_iff_right enters, Store.value_tree, eq_comm]
    cases unknown : (before.treeAt c).isUnknown with
    | true =>
      rw [onward, if_pos unknown] at ends
      rw [terms.policy.below_of_unknown unknown]
      refine ends.imp (fun logs => ⟨passes.trans logs.toPasses, logs.held, logs.confined, ?_,
        logs.goesOn, fun clear => ?_⟩) rfl fun stopped =>
        ⟨fun v => (stopped.handlers v).trans (passes.handlers v), stopped.called⟩
      · rw [logs.log, same]
      · rw [List.all_cons, Position.isKnown, unknown] at clear
        cases clear
    | false =>
      have known : Position.isKnown ⟨path, before.treeAt c⟩ = true :=
        Position.isKnown_iff.mpr unknown
      rw [onward, unknown, if_neg Bool.false_ne_true] at ends
      have nobody := terms.policy.invocations_cons_none known found []
      refine ends.prepend passes ?_ ?_ ?_ (completes.congr fun other _ => own other)
      · rw [List.all_cons, known]
        rfl
      · rw [same, Journal.record, nobody]
        rfl
      · exact fun stops => terms.policy.not_invokes_nil ((terms.policy.invokes_congr nobody).mp stops)

end Invoke

/-- However many turns there are, the walk is up to visiting whatever they are enough for. -/
theorem dispatches_and_traverses (meets : behaviour.Meets terms)
    (v : VisitorId) (turns : Nat) :
    Dispatches behaviour terms v turns ∧ Traverses behaviour terms v turns := by
  induction turns with
  | zero =>
    constructor
    · intro _ _ _ faces
      exact absurd faces.affords.two (by decide)
    · intro _ _ _ faces
      exact absurd faces.affords.two (by decide)
  | succ turns ih =>
    exact ⟨fun faces => ends_dispatch meets ih.2 faces, traverses_succ ih.1⟩

end Stroll

end CodeTree
