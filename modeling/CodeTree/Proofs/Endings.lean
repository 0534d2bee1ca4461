/-
How a visit ends that leaves the tree as it is. It has gone through some positions, has made of the
log what they make of it, and has completed the objects that it went below. It ends early only at an
object whose type names none, or where a handler breaks off; what has been noted by then is what
stands before.
-/

import CodeTree.Proofs.Observing

namespace CodeTree

open World

variable {H σ τ : Type}

variable {origin : Store} {tree : Tree} {value : Value} {c : CursorId}
  {held heldAfter : List CursorId} {first others positions rest second : List Position}
  {after before mid session start : Session H σ}

/-! ### Taking hold and letting go -/

theorem subperm_foldl_erase {cs rest held : List CursorId} (subperm : (cs ++ rest).Subperm held) :
    rest.Subperm (cs.foldl List.erase held) := by
  induction cs generalizing held with
  | nil => exact subperm
  | cons c cs ih =>
    have erased := subperm.erase c
    rw [List.cons_append, List.erase_cons_head] at erased
    exact ih erased

theorem mem_of_mem_foldl_erase {cs : List CursorId} (member : c ∈ cs.foldl List.erase held) :
    c ∈ held := by
  induction cs generalizing held with
  | nil => exact member
  | cons _ _ ih => exact List.mem_of_mem_erase (ih member)

namespace Policy

variable (policy : Policy H)

/-- A walk through some positions goes on below a value. -/
def Entered (positions : List Position) (value : Value) : Prop :=
  ∃ position ∈ positions, policy.enters position.tree = true ∧ position.tree.value = value

theorem entered_append :
    policy.Entered (first ++ second) value ↔
      policy.Entered first value ∨ policy.Entered second value := by
  simp only [Entered, List.mem_append, or_and_right, exists_or]

theorem entered_cons {position : Position} :
    policy.Entered (position :: rest) value ↔
      policy.enters position.tree = true ∧ position.tree.value = value ∨
        policy.Entered rest value := by
  simp only [Entered, List.mem_cons, or_and_right, exists_or, exists_eq_left]

theorem not_entered_nil (value : Value) : ¬policy.Entered [] value := nofun

/-- Below a tree with nothing in its slots there is nothing to enter. -/
theorem not_entered_of_hollow (hollow : ∀ name, tree.inner? name = none)
    (other : tree.value ≠ value) (path : List SlotName) :
    ¬policy.Entered (policy.positions path tree) value := by
  rintro ⟨position, member, _, same⟩
  obtain ⟨rest, _, shows⟩ := policy.at?_of_mem_positions member
  cases rest with
  | nil => exact other (Option.some.inj shows ▸ same)
  | cons name rest =>
    rw [Tree.at?, hollow] at shows
    cases shows

end Policy

namespace Stroll

variable {terms : Terms H σ τ}

/-! ### How a visit ends -/

/-- From one session to another, a visit has gone on. -/
structure Passes (terms : Terms H σ τ) (before after : Session H σ) : Prop where
  sound : Sound after.world
  footing : terms.toFooting.Stays before.world after.world
  keeps : before.world.Keeps after.world
  handlers : ∀ v, (after.visitor v).handlers = (before.visitor v).handlers

theorem Passes.refl (sound : Sound session.world) :
    Passes terms session session :=
  ⟨sound, .refl _ _, .refl _, fun _ => rfl⟩

theorem Passes.trans {first second third : Session H σ}
    (left : Passes terms first second) (right : Passes terms second third) :
    Passes terms first third :=
  ⟨right.sound, left.footing.trans right.footing, left.keeps.trans right.keeps,
    fun v => (right.handlers v).trans (left.handlers v)⟩

/-- A visit has gone through some positions: it has made of the log what they make of it, nothing
but parts of a value has been written to, and certain cursors are still held. If it could go on
everywhere, the objects below which it went have been completed. -/
structure Logs (terms : Terms H σ τ) (origin : Store) (value : Value) (held : List CursorId)
    (positions : List Position) (before after : Session H σ) : Prop
    extends Passes terms before after where
  held : held.Subperm after.world.held
  confined : origin.Confined after.world.store value
  log : terms.journal.view after.state =
    terms.journal.record terms.policy positions (terms.journal.view before.state)
  goesOn : ¬terms.Stops positions
  completes : positions.all Position.isKnown = true →
    before.world.store.Completes after.world.store (terms.policy.Entered positions)

theorem Logs.nil (sound : Sound session.world)
    (subperm : held.Subperm session.world.held) (confined : origin.Confined session.world.store value) :
    Logs terms origin value held [] session session :=
  ⟨.refl sound, subperm, confined, rfl, terms.policy.not_invokes_nil, fun _ =>
    (Store.completes_of_stays (.refl _)).congr fun value _ =>
      iff_of_false id (terms.policy.not_entered_nil value)⟩

/-- How a visit through some positions ends: it comes to the last, or it ends early at one where it
cannot go on, or where a handler stops it. -/
def Ends {α : Type} (terms : Terms H σ τ) (origin : Store) (value : Value) (held : List CursorId)
    (positions : List Position) (before : Session H σ) :
    Ended H σ α → Prop
  | .ok _ after => Logs terms origin value held positions before after ∧
      positions.all Position.isKnown = true
  | .error halt after => Logs terms origin value held positions before after ∧
      positions.all Position.isKnown = false ∧ (∃ shown, halt = .error (.unrecognizedType shown)) ∨
    terms.Stopped held positions before halt after

/-- A session in which a visitor can be sent to a cursor. -/
structure Faces (terms : Terms H σ τ) (v : VisitorId) (turns : Nat) (session : Session H σ)
    (path : List SlotName) (c : CursorId) : Prop where
  sound : Sound session.world
  holds : terms.holds session.world
  seat : terms.seats session.world path c
  handlers : (session.visitor v).handlers = terms.policy.handlers
  rises : session.world.Rises path c
  unshared : session.world.store.Unshared (session.world.value c)
  whole : session.world.store.Whole (session.world.value c)
  affords : session.world.store.Affords (session.world.value c) turns

/-- The walk is up to visiting any value that it has turns enough for. -/
def Dispatches (behaviour : Behaviour H σ) (terms : Terms H σ τ)
    (v : VisitorId) (turns : Nat) : Prop :=
  ∀ {before : Session H σ} {path : List SlotName} {d : CursorId},
    Faces terms v turns before path d →
    Ends terms before.world.store (before.world.value d) before.world.held
      (terms.policy.positions path (before.world.store.tree (before.world.value d))) before
      ((Visitor.calls behaviour turns).dispatch v d before)

/-- The same session with other handles. -/
def handles (session : Session H σ) (change : List CursorId → List CursorId) : Session H σ :=
  { session with world := { session.world with held := change session.world.held } }

theorem tidied_handles (session : Session H σ) (change : List CursorId → List CursorId) :
    Tidied change session (handles session change) := ⟨rfl, rfl, fun _ => rfl, fun _ => rfl⟩

/-- What is known of how far a visit came can be told in other words. -/
theorem Ends.imp {α : Type} {result : Ended H σ α} {originThen : Store} {valueThen : Value}
    {heldThen : List CursorId} {earlier : Session H σ}
    (ends : Ends terms origin value held positions before result)
    (logs : ∀ {after}, Logs terms origin value held positions before after →
      Logs terms originThen valueThen heldThen others earlier after)
    (known : others.all Position.isKnown = positions.all Position.isKnown)
    (stopped : ∀ {halt after}, terms.Stopped held positions before halt after →
      terms.Stopped heldThen others earlier halt after) :
    Ends terms originThen valueThen heldThen others earlier result := by
  cases result with
  | ok _ after => exact ⟨logs ends.1, known.trans ends.2⟩
  | error halt after =>
    exact Or.imp (fun ⟨through, unknown, shown⟩ => ⟨logs through, known.trans unknown, shown⟩)
      stopped ends

/-- Positions at which the same handlers are called and the same objects are entered, of those that
lack something. -/
theorem Ends.congr {α : Type} {result : Ended H σ α}
    (ends : Ends terms origin value held positions before result)
    (known : others.all Position.isKnown = positions.all Position.isKnown)
    (same : terms.policy.invocations others = terms.policy.invocations positions)
    (entered : ∀ value, before.world.store.lacking value ≠ [] →
      (terms.policy.Entered positions value ↔ terms.policy.Entered others value)) :
    Ends terms origin value held others before result := by
  refine ends.imp (fun logs => ⟨logs.toPasses, logs.held, logs.confined, ?_, ?_, ?_⟩) known
    fun stopped => ⟨stopped.handlers, (terms.policy.invokes_congr same).mpr stopped.called⟩
  · rw [logs.log, Journal.record, Journal.record, same]
  · exact fun stops => logs.goesOn ((terms.policy.invokes_congr same).mp stops)
  · exact fun clear => (logs.completes (known.symm.trans clear)).congr entered

/-- A visit that has ended early does not come to what is further on. -/
theorem Ends.append {α : Type} {halt : Halt VisitError}
    (ends : Ends terms origin value held first before (.error halt after : Ended H σ α)) :
    Ends terms origin value held (first ++ second) before (.error halt after : Ended H σ α) := by
  rcases ends with ⟨logs, unknown, shown⟩ | ⟨handlers, called⟩
  · have nobody := terms.policy.invocations_append_of_unknown unknown second
    have stuck : (first ++ second).all Position.isKnown = false := by
      rw [List.all_append, unknown, Bool.false_and]
    refine .inl ⟨⟨logs.toPasses, logs.held, logs.confined, ?_, ?_, ?_⟩, stuck, shown⟩
    · rw [logs.log, Journal.record, Journal.record, nobody]
    · exact fun stops => logs.goesOn ((terms.policy.invokes_congr nobody).mp stops)
    · exact fun clear => Bool.noConfusion (stuck.symm.trans clear)
  · exact .inr ⟨handlers, terms.policy.invokes_append_left called⟩

theorem Ends.answering {α : Type} {action : VisitAction H σ α}
    (ends : Ends terms origin value held positions before (action start)) (c : CursorId) :
    Ends terms origin value held positions before (Visitor.answering c action start) := by
  simp only [Visitor.answering, bind, EStateM.bind]
  cases outcome : action start with
  | ok _ after =>
    rw [outcome] at ends
    exact ends
  | error _ after =>
    rw [outcome] at ends
    exact ends

/-! ### Tidying up -/

theorem Tidied.passes {change : List CursorId → List CursorId} {tidied : Session H σ}
    (tidy : Tidied change session tidied) (sound : Sound session.world)
    (inside : ∀ c ∈ change session.world.held, c < session.world.cursors.size) :
    Passes terms session tidied := by
  refine ⟨?_, ?_, ?_, tidy.handlers⟩ <;> rw [tidy.world]
  · exact sound.around _ inside
  · exact terms.handles _ _
  · exact (Keeps.refl session.world).around _ _ _ _

theorem Logs.tidied {tidied : Session H σ}
    (logs : Logs terms origin value held positions before after)
    {change : List CursorId → List CursorId} (tidy : Tidied change after tidied)
    (lets : ∀ c ∈ change after.world.held, c ∈ after.world.held)
    (subperm : heldAfter.Subperm (change after.world.held)) :
    Logs terms origin value heldAfter positions before tidied := by
  refine ⟨logs.toPasses.trans (tidy.passes logs.sound fun c member =>
    logs.sound.held (lets c member)), ?_, ?_, ?_, logs.goesOn, ?_⟩
  · rw [tidy.world]
    exact subperm
  · rw [tidy.world]
    exact logs.confined
  · rw [tidy.state]
    exact logs.log
  · rw [tidy.world]
    exact logs.completes

/-- Handles may be let go at the end. -/
theorem Ends.tidying {α : Type} {result : Ended H σ α}
    (ends : Ends terms origin value held positions before result) {tidy : Session H σ → Session H σ}
    {change : List CursorId → List CursorId} (tidied : ∀ after, Tidied change after (tidy after))
    (lets : ∀ {heldNow}, ∀ c ∈ change heldNow, c ∈ heldNow)
    (subperms : ∀ {heldNow}, held.Subperm heldNow → heldAfter.Subperm (change heldNow)) :
    Ends terms origin value heldAfter positions before (Visitor.tidying tidy result) := by
  cases result with
  | ok _ after => exact ⟨ends.1.tidied (tidied after) lets (subperms ends.1.held), ends.2⟩
  | error _ after =>
    refine Or.imp (fun ⟨logs, stuck⟩ => ?_) (fun ⟨handlers, call, among, stopped⟩ => ?_) ends
    · exact ⟨logs.tidied (tidied after) lets (subperms logs.held), stuck⟩
    · exact ⟨fun v => ((tidied after).handlers v).trans (handlers v), call, among,
        terms.lets (tidied after) lets subperms stopped⟩

/-- A visit may be said to have begun earlier, when less was stored and held. -/
theorem Ends.since {α : Type} {result : Ended H σ α} {originNow : Store} {heldNow : List CursorId}
    (ends : Ends terms originNow value heldNow positions before result)
    (stays : origin.Stays originNow) (whole : origin.Whole value) (subperm : held.Subperm heldNow) :
    Ends terms origin value held positions before result :=
  ends.imp (fun logs => ⟨logs.toPasses, subperm.trans logs.held,
    stays.confined whole logs.confined, logs.log, logs.goesOn, logs.completes⟩) rfl
    fun ⟨handlers, call, among, stopped⟩ => ⟨handlers, call, among,
      terms.lets (tidied_handles _ id) (fun _ => id) subperm.trans stopped⟩

/-- A visit that has come to the end of some positions goes on with others. -/
theorem Ends.prepend {α : Type} {front : List Position} {result : Ended H σ α}
    (ends : Ends terms origin value held positions mid result) (passes : Passes terms before mid)
    (known : front.all Position.isKnown = true) (log : terms.journal.view mid.state =
      terms.journal.record terms.policy front (terms.journal.view before.state))
    (goesOn : ¬terms.Stops front)
    (completes : before.world.store.Completes mid.world.store (terms.policy.Entered front)) :
    Ends terms origin value held (front ++ positions) before result := by
  have both : (front ++ positions).all Position.isKnown = positions.all Position.isKnown := by
    rw [List.all_append, known, Bool.true_and]
  refine ends.imp (fun onward => ⟨passes.trans onward.toPasses, onward.held, onward.confined, ?_,
    fun stops => ?_, fun clear => ?_⟩) both
    fun stopped => ⟨fun v => (stopped.handlers v).trans (passes.handlers v),
      (terms.policy.invokes_append known).mpr (.inr stopped.called)⟩
  · rw [onward.log, log]
    simp only [Journal.record, Journal.replay, terms.policy.invocations_append known,
      List.foldl_append]
  · exact ((terms.policy.invokes_append known).mp stops).elim goesOn onward.goesOn
  · exact (completes.trans (onward.completes (both.symm.trans clear))).congr
      fun _ _ => terms.policy.entered_append.symm

theorem tidied_releaseAll (cs : List CursorId) (session : Session H σ) :
    Tidied (cs.foldl List.erase ·) session (HasWorld.modifyWorld session (·.releaseAll cs)) :=
  ⟨releaseAll_eq session.world cs, rfl, fun _ => rfl, fun _ => rfl⟩

end Stroll

end CodeTree
