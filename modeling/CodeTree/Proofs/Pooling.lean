/-
Pools of contexts. A visitor keeps the contexts of calls that have ended for later calls. That
makes no difference to visits: they go as visits do in which every call of a handler starts from
nothing, and in which there are no contexts at all. Along such a visit it is recorded which calls
begin and end. What a visitor keeps in the end are as many contexts as it kept before, or as many
as it has had calls of its handlers going on at one time, whichever is more.
-/

import CodeTree.Proofs.Linking

namespace CodeTree

variable {H σ γ : Type}

/-! ### The course of calls -/

/-- A call of a handler begins or ends. -/
inductive Event (H : Type) where
  | enters (v : VisitorId) (handler : H) (c : CursorId)
  | leaves (v : VisitorId)

namespace Event

/-- How many calls of the handlers of a visitor go on. Events are listed from the last to the
first. -/
def active (w : VisitorId) : List (Event H) → Nat
  | [] => 0
  | enters v _ _ :: earlier => active w earlier + if v = w then 1 else 0
  | leaves v :: earlier => active w earlier - if v = w then 1 else 0

/-- How many went on at one time, at most. -/
def peak (w : VisitorId) : List (Event H) → Nat
  | [] => 0
  | event :: earlier => max (peak w earlier) (active w (event :: earlier))

end Event

/-! ### Visits without contexts -/

namespace Fresh

/-- A session that records the calls of handlers. -/
abbrev Recording (H σ : Type) := Session H (σ × List (Event H))

def record (event : Event H) (session : Recording H σ) : Recording H σ :=
  { session with state := (session.state.1, event :: session.state.2) }

/-- Calls a handler: its plan is carried out from nothing. -/
def invoke (table : Table H (σ × List (Event H))) (calls : Calls H (σ × List (Event H)))
    (v : VisitorId) (c : CursorId) (declared : NodeType) (handler : H) :
    VisitAction H (σ × List (Event H)) Value := do
  modify fun session => HasWorld.modifyWorld (record (.enters v handler c) session) (·.hold c)
  Visitor.tidied
    (fun session => HasWorld.modifyWorld (record (.leaves v) session) (·.release c)) (do
      let outcome ← (table.plan v handler c).perform calls false
      Visitor.conclude calls v c declared outcome)

def dispatch (table : Table H (σ × List (Event H))) (calls : Calls H (σ × List (Event H)))
    (v : VisitorId) (c : CursorId) : VisitAction H (σ × List (Event H)) Value := do
  let session ← get
  match session.handler? v (session.world.value c) with
  | some (declared, handler) => invoke table calls v c declared handler
  | none => calls.traverse v c

/-- The walk within a number of turns inside one another. -/
def calls (table : Table H (σ × List (Event H))) : Nat → Calls H (σ × List (Event H))
  | 0 =>
    { traverse := fun _ _ => throw .outOfTurns
      dispatch := fun _ _ => throw .outOfTurns
      start := fun _ _ _ => throw .outOfTurns }
  | turns + 1 =>
    { traverse := Visitor.traverse (calls table turns)
      dispatch := dispatch table (calls table turns)
      start := Visitor.start (.ofTable table) (calls table turns) }

end Fresh

/-! ### Sessions with and without pools -/

namespace Session

section Visitors

variable (session : Session H σ)

theorem unpooled_modifyVisitor (v : VisitorId) {change other : Visitor H → Visitor H}
    (same : ∀ visitor, { change visitor with pool := [] } = other { visitor with pool := [] }) :
    (session.modifyVisitor v change).unpooled = session.unpooled.modifyVisitor v other := by
  have visitors : (session.modifyVisitor v change).unpooled.visitors =
      (session.unpooled.modifyVisitor v other).visitors := by
    refine Array.ext_getElem? fun w => ?_
    simp only [modifyVisitor, unpooled, Array.getElem?_map, Array.getElem?_modify]
    split
    · cases session.visitors[w]? with
      | none => rfl
      | some visitor => exact congrArg some (same visitor)
    · rfl
  exact congrArg (fun visitors => { session with visitors }) visitors

theorem unpooled_unpooled : session.unpooled.unpooled = session.unpooled := by
  have visitors : session.unpooled.unpooled.visitors = session.unpooled.visitors := Array.map_map
  exact congrArg (fun visitors => { session with visitors }) visitors

theorem unpooled_addVisitor (handlers : List (NodeType × H)) :
    (session.addVisitor (.ofHandlers handlers)).2.unpooled =
      (session.unpooled.addVisitor (.ofHandlers handlers)).2 := by
  have visitors : (session.addVisitor (.ofHandlers handlers)).2.unpooled.visitors =
      (session.unpooled.addVisitor (.ofHandlers handlers)).2.visitors := Array.map_push
  exact congrArg (fun visitors => { session with visitors }) visitors

/-- A visitor that is built keeps no contexts. -/
theorem pool_addVisitor (handlers : List (NodeType × H)) (w : VisitorId) :
    ((session.addVisitor (.ofHandlers handlers)).2.visitor w).pool = (session.visitor w).pool := by
  simp only [visitor, addVisitor, Array.getElem?_push]
  split
  · rename_i last
    rw [last, Array.getElem?_eq_none (Nat.le_refl _)]
    rfl
  · rfl

theorem modifyVisitor_id (v : VisitorId) : session.modifyVisitor v id = session := by
  have visitors : session.visitors.modify v id = session.visitors := by
    refine Array.ext_getElem? fun w => ?_
    rw [Array.getElem?_modify]
    split
    · exact congrFun Option.map_id _
    · rfl
  exact congrArg (fun visitors => { session with visitors }) visitors

end Visitors

end Session

/-- A session whose visitors keep contexts, and one in which there are none. `before` is the session
at the start, `active` tells how many calls go on, and at least `present` visitors have been
built. -/
structure Pooled (before : Session H σ) (active : VisitorId → Nat) (present : Nat)
    (session : Session H σ) (fresh : Fresh.Recording H σ) : Prop where
  plain : fresh.plain = session.unpooled
  counts : ∀ w, Event.active w fresh.state.2 = active w
  pool : ∀ w, (session.visitor w).pool.length + active w =
    max (before.visitor w).pool.length (Event.peak w fresh.state.2)
  slots : ∀ w, ∀ slot ∈ (session.visitor w).pool,
    slot = .idle ∨ slot ∈ (before.visitor w).pool
  present : present ≤ session.visitors.size

namespace Pooled

variable {before session : Session H σ} {active : VisitorId → Nat} {present : Nat}
  {fresh : Fresh.Recording H σ}

/-- The link of visits with pools to visits without contexts. -/
def link (before : Session H σ) (active : VisitorId → Nat) (present : Nat) :
    Link H σ (List (Event H)) :=
  Pooled before active present

/-- A change that leaves the contexts, and the same change without them. -/
theorem change (pooled : Pooled before active present session fresh) {later : Session H σ}
    {freshLater : Fresh.Recording H σ} (plain : freshLater.plain = later.unpooled) (record : freshLater.state.2 = fresh.state.2)
    (pools : ∀ w, (later.visitor w).pool = (session.visitor w).pool)
    (size : session.visitors.size ≤ later.visitors.size) :
    Pooled before active present later freshLater where
  plain := plain
  counts w := record ▸ pooled.counts w
  pool w := by
    rw [pools w, record]
    exact pooled.pool w
  slots w := by
    rw [pools w]
    exact pooled.slots w
  present := Nat.le_trans pooled.present size

theorem carries (before : Session H σ) (active : VisitorId → Nat) (present : Nat) :
    (link before active present).Carries where
  seen {session _} pooled :=
    (congrArg Session.unpooled pooled.plain).trans session.unpooled_unpooled
  changes pooled world state :=
    Pooled.change pooled (congrArg (fun plain => { plain with world, state }) pooled.plain) rfl
      (fun _ => rfl) (Nat.le_refl _)
  flagged {session fresh} pooled v change flags := by
    refine Pooled.change pooled ?_ rfl (fun w => ?_) (Array.size_modify ..).ge
    · rw [session.unpooled_modifyVisitor v fun visitor => (flags visitor []).symm,
        ← pooled.plain]
      rfl
    · rw [session.visitor_modifyVisitor]
      split
      · have kept := congrArg Visitor.pool (flags (session.visitor w) (session.visitor w).pool)
        exact kept
      · rfl
  builds {session fresh} pooled handlers := by
    refine Pooled.change pooled ?_ rfl (session.pool_addVisitor handlers) ?_
    · rw [session.unpooled_addVisitor, ← pooled.plain]
      rfl
    · rw [Session.addVisitor, Array.size_push]
      exact Nat.le_succ _

/-! ### Calls of handlers -/

section Call

variable {table : Table H σ} {calls : Calls H σ} {others : Calls H (σ × List (Event H))}

/-- The pool is changed, and cursors are held or let go. -/
theorem plain_of_pool (pooled : Pooled before active present session fresh) (event : Event H)
    (v : VisitorId) (pool : List Context → List Context) (hands : World → World) :
    (HasWorld.modifyWorld (Fresh.record event fresh) hands).plain =
      (HasWorld.modifyWorld (session.modifyVisitor v fun visitor =>
        { visitor with pool := pool visitor.pool }) hands).unpooled := by
  have same : (session.modifyVisitor v fun visitor =>
      { visitor with pool := pool visitor.pool }).unpooled = session.unpooled := by
    refine Eq.trans ?_ (session.unpooled.modifyVisitor_id v)
    exact session.unpooled_modifyVisitor v fun _ => rfl
  exact congrArg (fun plain => { plain with world := hands plain.world })
    (pooled.plain.trans same.symm)

/-- When a call begins, a context is taken from the pool if there is one. -/
theorem enter (pooled : Pooled before active present session fresh) {v : VisitorId}
    (inside : v < session.visitors.size) (handler : H) (c : CursorId) :
    Pooled before (fun w => active w + if v = w then 1 else 0) session.visitors.size
      (Stroll.entered v c session)
      (HasWorld.modifyWorld (Fresh.record (.enters v handler c) fresh) (·.hold c)) := by
  have pool (w : VisitorId) : ((Stroll.entered v c session).visitor w).pool =
      if v = w then (session.visitor w).pool.tail else (session.visitor w).pool := by
    show ((session.modifyVisitor v _).visitor w).pool = _
    rw [session.visitor_modifyVisitor]
    by_cases same : v = w
    · rw [if_pos ⟨same, same ▸ inside⟩, if_pos same]
    · rw [if_neg (same ·.1), if_neg same]
  refine ⟨pooled.plain_of_pool _ v List.tail _, fun w => ?_, fun w => ?_, fun w slot => ?_, ?_⟩
  · exact congrArg (· + _) (pooled.counts w)
  · have counted := pooled.pool w
    show _ = max _ (max (Event.peak w fresh.state.2) (Event.active w fresh.state.2 + _))
    rw [pool w, pooled.counts w]
    split
    · rw [List.length_tail]
      omega
    · omega
  · rw [pool w]
    split
    · exact fun member => pooled.slots w slot (List.mem_of_mem_tail member)
    · exact pooled.slots w slot
  · exact (Array.size_modify ..).ge

/-- When it ends, a context is put into the pool. -/
theorem leave {v : VisitorId} {later : Nat}
    (pooled : Pooled before (fun w => active w + if v = w then 1 else 0) later session fresh)
    (inside : v < later) (fewer : present ≤ later) (c : CursorId) (context : Context) :
    Pooled before active present (Visitor.closeContext v c context session)
      (HasWorld.modifyWorld (Fresh.record (.leaves v) fresh) (·.release c)) := by
  have known : v < session.visitors.size := Nat.lt_of_lt_of_le inside pooled.present
  have pool (w : VisitorId) : ((Visitor.closeContext v c context session).visitor w).pool =
      if v = w then .idle :: (session.visitor w).pool else (session.visitor w).pool := by
    show ((session.modifyVisitor v _).visitor w).pool = _
    rw [session.visitor_modifyVisitor]
    by_cases same : v = w
    · rw [if_pos ⟨same, same ▸ known⟩, if_pos same, Context.idle]
    · rw [if_neg (same ·.1), if_neg same]
  have ended (w : VisitorId) : Event.active w (.leaves v :: fresh.state.2) = active w := by
    rw [Event.active, pooled.counts w]
    exact Nat.add_sub_cancel _ _
  refine ⟨pooled.plain_of_pool _ v (.idle :: ·) _, ended, fun w => ?_, fun w slot => ?_, ?_⟩
  · have counted := pooled.pool w
    show _ = max _ (max (Event.peak w fresh.state.2) (Event.active w (.leaves v :: fresh.state.2)))
    rw [pool w, ended w]
    split at counted
    · rename_i same
      rw [if_pos same, List.length_cons]
      omega
    · rename_i other
      rw [if_neg other]
      omega
  · rw [pool w]
    split
    · rintro (_ | ⟨_, member⟩)
      · exact .inl rfl
      · exact pooled.slots w slot member
    · exact pooled.slots w slot
  · exact Nat.le_trans fewer (Nat.le_trans pooled.present (Array.size_modify ..).ge)

theorem invoke_endsAlike (pooled : Pooled before active present session fresh) {v : VisitorId}
    (inside : v < session.visitors.size)
    (relates : (link before (fun w => active w + if v = w then 1 else 0)
      session.visitors.size).Relates calls others) (c : CursorId) (declared : NodeType)
    (handler : H) :
    EndsAlike (link before active present)
      (Visitor.invoke (.ofTable table) calls v c declared handler session)
      (Fresh.invoke table.carried others v c declared handler fresh) := by
  have carries := carries before (fun w => active w + if v = w then 1 else 0) session.visitors.size
  have keeps := (carries.keeps_carried relates (table.plan v handler c) false).bind
    (carries.keeps_conclude (relates.traverse v c) declared)
  rw [Visitor.invoke_ofTable]
  show EndsAlike _ _ (Visitor.tidied _ _ _)
  rw [Visitor.tidied_apply]
  exact (keeps (pooled.enter inside handler c)).tidying fun inner =>
    Pooled.leave inner inside pooled.present c _

theorem keeps_dispatch (v : VisitorId) (c : CursorId)
    (relates : ∀ active present, (link before active present).Relates calls others) :
    (link before active present).Keeps (Visitor.dispatch (.ofTable table) calls v c)
      (Fresh.dispatch table.carried others v c) := by
  intro session fresh pooled
  have carries := carries before active present
  simp only [Visitor.dispatch, Fresh.dispatch, bind, EStateM.bind, get, getThe, MonadStateOf.get,
    get_apply]
  rw [carries.world pooled, carries.handler? pooled]
  cases found : session.handler? v (session.world.value c) with
  | none => exact (relates active present).traverse v c pooled
  | some named =>
    exact invoke_endsAlike pooled (Session.inside_of_handler? found) (relates _ _) c named.1 named.2

end Call

/-- Visits with pools go as visits without contexts do, however many calls go on already. -/
theorem relates_calls (before : Session H σ) (table : Table H σ) (turns : Nat)
    (active : VisitorId → Nat) (present : Nat) :
    (link before active present).Relates (Visitor.calls (.ofTable table) turns)
      (Fresh.calls table.carried turns) := by
  induction turns generalizing active present with
  | zero =>
    exact ⟨fun _ _ => Link.keeps_throw _, fun _ _ => Link.keeps_throw _,
      fun _ _ _ => Link.keeps_throw _⟩
  | succ turns ih =>
    have carries := carries before active present
    refine ⟨fun v => ?_, fun v c => ?_, fun v => ?_⟩
    · exact carries.keeps_traverse ((ih active present).dispatch v)
    · exact keeps_dispatch v c ih
    · exact carries.keeps_start table ((ih active present).dispatch v)

/-- At the start of a visit there are no calls. -/
theorem initial (session : Session H σ) :
    Pooled session (fun _ => 0) 0 session (session.unpooled.carrying []) where
  plain := rfl
  counts _ := rfl
  pool _ := (Nat.max_zero _).symm
  slots _ _ := .inr
  present := Nat.zero_le _

end Pooled

/-- How a visit with pools has ended, next to one without contexts: in the same session, but for the
contexts that visitors keep. These are as many as before, or as have been in use at one time, and
none of them is in use. -/
structure Restocked (before after : Session H σ) (fresh : Fresh.Recording H σ) : Prop where
  plain : fresh.plain = after.unpooled
  pool : ∀ w, (after.visitor w).pool.length =
    max (before.visitor w).pool.length (Event.peak w fresh.state.2)
  slots : ∀ w, ∀ slot ∈ (after.visitor w).pool, slot = .idle ∨ slot ∈ (before.visitor w).pool

/-- Pools of contexts make no difference. A visit answers or fails as one in which every call of a
handler starts from nothing, with the same world, state and flags in the end, and the pools hold as
many contexts as before or as were needed at one time. A handler that claims to have had the
children walked is told off exactly if it has not itself called its context, whatever was called
within. Handlers go by a table of plans. A plan looks at the session without its pools, so that how
many contexts are pooled is nothing it could act upon. -/
theorem Visitor.pools_unobservable (table : Table H σ) (turns : Nat) (v : VisitorId)
    (target : VisitTarget) (arguments : List Value) (session : Session H σ) :
    EndsAlike (Restocked session) ((calls (.ofTable table) turns).start v target arguments session)
      ((Fresh.calls table.carried turns).start v target arguments
        (session.unpooled.carrying [])) ∧
    ∀ calls w c declared handler (mid : Session H σ),
      invoke (.ofTable table) calls w c declared handler mid =
        tidying (closeContext w c ⟨some c, true⟩)
          (match (table.plan w handler c).perform calls false (Stroll.entered w c mid) with
          | .ok (.traversed, false) last => .error (.error (.notTraversed declared.name)) last
          | .ok (.traversed, true) last => .ok (last.world.value c) last
          | .ok (.skipChildren, _) last => .ok (last.world.value c) last
          | .ok (.replace value, called) last =>
            conclude calls w c declared (.replace value, called) last
          | .error halt last => .error halt last) := by
  refine ⟨?_, fun calls w c declared handler mid => ?_⟩
  · have relates := Pooled.relates_calls session table turns (fun _ => 0) 0
    exact (relates.start v target arguments (Pooled.initial session)).imp fun pooled =>
      ⟨pooled.plain, pooled.pool, pooled.slots⟩
  · rw [invoke_ofTable, EStateM.bind]
    congr 1
    cases (table.plan w handler c).perform calls false (Stroll.entered w c mid) with
    | error halt last => rfl
    | ok outcome last =>
      obtain ⟨verdict, called⟩ := outcome
      cases verdict with
      | traversed => cases called <;> rfl
      | skipChildren => rfl
      | replace value => rfl

end CodeTree
