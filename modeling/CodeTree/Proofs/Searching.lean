/-
Looking for the first match. The visit goes on at the root, whatever its type, and is stopped at
the first match below it. A visit that is not stopped has come to everything that a walk comes to
and has met no match; one that is stopped has noted a match, at a cursor that is found along the
path of the walk. Only an object of unknown type makes a visit fail. On the way cursors are taken
hold of and let go again, and defaults are filled in; whichever way the visit ends, the world is in
good order.
-/

import CodeTree.Command.PruneAll
import CodeTree.Proofs.DispatchLog
import CodeTree.Proofs.Gathering

namespace CodeTree

variable {before world : World} {value : Value} {c d : CursorId} {held heldAfter : List CursorId}
  {path : List SlotName} {type : NodeType} {name : SlotName} {turns : Nat} {store : Store}

namespace World

/-! ### Handles -/

/-- Handles are nothing to a tour. -/
theorem Tours.withHeld {after : World} (tours : Tours before after) (held heldAfter : List CursorId) :
    Tours { before with held } { after with held := heldAfter } where
  size := tours.size
  origin := tours.origin
  views := tours.views
  value := tours.value
  follow inside leads here := by
    rw [follow?_withHeld] at leads ⊢
    exact tours.follow inside leads here
  filled := tours.filled

/-- A world is in good order with whichever handles, if with fewer of them it has been so. -/
theorem Orderly.withHeld {after : World} (orderly : Orderly after) (tours : Tours before after)
    (safe : Orderly { before with held }) (more : ∀ c ∈ held, c ∈ heldAfter)
    (inside : ∀ c ∈ heldAfter, c < after.cursors.size) :
    Orderly { after with held := heldAfter } where
  coherent := orderly.coherent.handles inside
  held := by
    obtain ⟨handle, member, holds⟩ := List.any_eq_true.mp safe.held
    have known : handle < before.cursors.size := safe.coherent.sound.held member
    have same : (after.cursor handle).root = (before.cursor handle).root := tours.origin known
    refine List.any_eq_true.mpr ⟨handle, more handle member, ?_⟩
    show (handle == 0 || (after.cursor handle).root == 0) = true
    rw [same]
    exact holds
  fits := orderly.fits
  whole := orderly.whole

/-- Handles are nothing to what is asked for. -/
theorem child_withHeld (world : World) (held : List CursorId) (c : CursorId) (name : SlotName) :
    { world with held }.child c name =
      ((world.child c name).1, { (world.child c name).2 with held }) := by
  have apart {p : Prop} [Decidable p] {kept added : CursorId × World}
      {keptToo addedToo : CursorId × World} (left : keptToo = (kept.1, { kept.2 with held }))
      (right : addedToo = (added.1, { added.2 with held })) :
      (if p then keptToo else addedToo) =
        ((if p then kept else added).1, { (if p then kept else added).2 with held }) := by
    split <;> assumption
  simp only [child, value, cursor]
  split
  · rfl
  · exact apart rfl rfl

theorem fillField_withHeld (world : World) (held : List CursorId) (value : Value) (key : String) :
    { world with held }.fillField value key = { world.fillField value key with held } := by
  unfold fillField
  dsimp only
  split
  · rfl
  · split <;> rfl

/-- A cursor that is held with all above it has as many above it as its path has names. -/
theorem Rises.parents (rises : world.Rises path c) :
    ((world.parent? c).bind world.parent?).isSome = decide (2 ≤ path.length) := by
  have orphan {c : CursorId} (topmost : world.above? c = none) : world.parent? c = none := by
    have absent : (world.cursor c).parent? = none := topmost
    rw [parent?, absent]
  cases rises with
  | top _ topmost _ =>
    rw [orphan topmost]
    rfl
  | step rises above _ _ =>
    rw [parent?_of_above? above rises.isAlive, Option.bind_some]
    cases rises with
    | top _ topmost _ =>
      rw [orphan topmost]
      rfl
    | step rises above _ _ =>
      rw [parent?_of_above? above rises.isAlive]
      simp

end World

/-- What stands at a cursor that is found is in the store. -/
theorem World.Stands.whole (stands : world.Stands path d) (orderly : Orderly world) :
    world.store.Whole (world.value d) := by
  by_cases composite : ∃ id, world.value d = .composite id
  · obtain ⟨id, here⟩ := composite
    rw [here]
    exact orderly.whole.part (orderly.coherent.part_of_follow (stands.leads here) here)
  · exact Store.whole_of_plain fun id here => composite ⟨id, here⟩

/-- Nothing is shared in what stands at a cursor that is found. -/
theorem World.Stands.unshared {d : CursorId} (stands : world.Stands path d)
    (orderly : Orderly world) : world.store.Unshared (world.value d) := by
  cases here : world.value d with
  | composite id =>
    exact Store.Unshared.part orderly.coherent.unshared
      (orderly.coherent.part_of_follow (stands.leads here) here)
  | _ =>
    intro path other id first second
    cases (Store.part?_of_plain rfl first).2

/-- A walk from a primitive comes to nothing of a type. -/
theorem Store.composite_of_reaches {comments : Bool} {part : Value} {path : List SlotName}
    (reached : store.terrain.Reaches comments value path part)
    (isType : store.isOf type part = true) : ∃ id, value = .composite id := by
  cases reached with
  | here => exact composite_of_isOf isType
  | step _ entry _ =>
    cases value with
    | composite id => exact ⟨id, rfl⟩
    | _ => cases entry

theorem Store.isUnknown_tree (unshared : store.Unshared value) :
    (store.tree value).isUnknown = store.terrain.isUnknown value := by
  rw [Tree.isUnknown, Terrain.isUnknown, type?_tree unshared, type?_terrain, inner?_tree unshared,
    Option.isSome_map]
  rfl

/-! ### One handler -/

theorem Policy.walksComments_single (type : NodeType) :
    (single type).walksComments = type.includesComments := by
  rw [walksComments, declared?_single, declared?_single, NodeType.includesComments]
  split <;> split <;> simp_all

section Single

variable {front rest : List SlotName} {part : Value} (unshared : store.Unshared value)

include unshared

/-- The handler is called at a match that a walk comes to. -/
theorem Policy.reaches_of_mem_single {call : Invocation Unit}
    (among : call ∈ (single type).invocations ((single type).positions front (store.tree value))) :
    ∃ rest part, call.position = ⟨front ++ rest, store.tree part⟩ ∧
      store.terrain.Reaches type.includesComments value rest part ∧
      store.isOf type part = true := by
  obtain ⟨listed, handler⟩ := (single type).mem_of_mem_invocations among
  obtain ⟨rest, part, position, there, reached⟩ :=
    Stroll.exists_of_mem_positions unshared listed
  have isType : store.isOf type part = true := by
    by_contra differs
    rw [handler?_single, position, Store.isOf_tree (unshared.part there), if_neg differs] at handler
    cases handler
  obtain ⟨id, rfl⟩ := Store.composite_of_isOf isType
  exact ⟨rest, _, position, walksComments_single type ▸ reached rfl, isType⟩

/-- A walk that can go on everywhere calls the handler at every match that it comes to. -/
theorem Policy.mem_single_of_reaches
    (known : ((single type).positions front (store.tree value)).all Position.isKnown = true)
    (reached : store.terrain.Reaches type.includesComments value rest part)
    (isType : store.isOf type part = true) :
    ⟨type, (), ⟨front ++ rest, store.tree part⟩⟩ ∈
      (single type).invocations ((single type).positions front (store.tree value)) := by
  obtain ⟨id, rfl⟩ := Store.composite_of_isOf isType
  rw [← walksComments_single] at reached
  have listed := (Stroll.mem_positions_iff (fun _ _ => rfl) unshared (.inr rfl) front rest).mpr
    reached
  refine mem_invocations _ known listed ?_
  rw [handler?_single, Store.isOf_tree (unshared.part (Store.part?_of_reaches reached)),
    if_pos isType]

end Single

namespace PruneAll

open World

/-! ### Searches -/

/-- A session that looks for a match. -/
abbrev Search := Session Unit (Option CursorId)

/-- A session in good order that has not found anything. -/
structure Hunting (type : NodeType) (search : Search) : Prop where
  handlers : (search.visitor 0).handlers = .ofList [(type, ())]
  orderly : Orderly search.world
  state : search.state = none

/-- From one session to another, a visit has gone on. -/
structure Tour (type : NodeType) (before after : Search) : Prop where
  handlers : (after.visitor 0).handlers = .ofList [(type, ())]
  orderly : Orderly after.world
  tours : Tours before.world after.world

/-- A match has been noted that a walk along a path from a value comes to. The root itself is no
match. -/
def Found (type : NodeType) (path : List SlotName) (value : Value) (search : Search) : Prop :=
  ∃ target rest, search.state = some target ∧
    search.world.follow? 0 (path ++ rest) = some target ∧ 2 ≤ (path ++ rest).length ∧
    search.world.store.terrain.Reaches type.includesComments value rest
      (search.world.value target) ∧
    search.world.store.isOf type (search.world.value target) = true

/-- Something in the tree has a type that names none. -/
def Unknown (world : World) : Prop :=
  ∃ path part, world.store.part? (world.value 0) path = some part ∧
    world.store.terrain.isUnknown part = true

/-- A search leaves the world in good order, whatever is held, and cursors stand where they stood. -/
def footing (start : World) : Stroll.Footing where
  holds world := (∃ held, Orderly { world with held }) ∧ Tours start world
  seats := Stands

theorem stays_handles (start world : World) (held : List CursorId) :
    (footing start).Stays world { world with held } :=
  ⟨fun ⟨orderly, tours⟩ => ⟨orderly, tours.withHeld start.held held⟩,
    fun stands => ⟨stands.inside, fun here =>
      (follow?_withHeld _ _ _ _).trans (stands.leads here)⟩⟩

theorem steps_of_gathered {start : World} {result : CursorId × World}
    (gathered : Gathered { world with held } path (result.1, { result.2 with held })) :
    (footing start).Steps world path result := by
  have tours : Tours world result.2 := gathered.tours.withHeld world.held result.2.held
  exact ⟨⟨fun ⟨_, earlier⟩ => ⟨⟨held, gathered.orderly⟩, earlier.trans tours⟩, tours.stands⟩,
    (stays_handles start { result.2 with held } result.2.held).seats gathered.stands⟩

/-- A search has been stopped at a position. -/
structure Caught (start : World) (position : Position) (held : List CursorId)
    (halt : Halt VisitError) (search : Search) : Prop where
  asked : ∃ v, halt = .error (.aborted v) ∧ (search.visitor v).abortRequested = true
  sound : Sound search.world
  holds : (footing start).holds search.world
  held : held.Subperm search.world.held
  deep : 2 ≤ position.path.length
  noted : ∃ target, search.state = some target ∧ search.world.Stands position.path target ∧
    search.world.value target = position.tree.value

/-- A search is stopped below the root. -/
def terms (type : NodeType) (start : World) :
    Stroll.Terms Unit (Option CursorId) (Option CursorId) where
  toFooting := footing start
  policy := .single type
  journal := ⟨id, fun _ noted => noted, fun _ _ noted => noted⟩
  stops _ position := 2 ≤ position.path.length
  stopped _ := Caught start
  handles := stays_handles start
  element {world path c items position} _ _ holds stands array inRange := by
    obtain ⟨⟨held, orderly⟩, _⟩ := holds
    obtain ⟨id, here⟩ := Store.exists_id_of_contents? array
    have gathered := orderly.gathered_child ((follow?_withHeld _ _ _ _).trans (stands.leads here))
      (Store.normalName_array array (.index position)) (by
        rintro others _ present ⟨⟩
        cases array.symm.trans present
        exact inRange)
    rw [child_withHeld] at gathered
    exact steps_of_gathered gathered
  field {world path c members} key _ _ holds stands object := by
    obtain ⟨⟨held, orderly⟩, _⟩ := holds
    obtain ⟨id, here⟩ := Store.exists_id_of_contents? object
    have gathered := orderly.gathered_field
      ((follow?_withHeld _ _ _ _).trans (stands.leads here)) object key
    rw [fillField_withHeld, child_withHeld] at gathered
    exact steps_of_gathered gathered
  lets {_ position halt held heldAfter change search tidied} tidy lets subperm caught := by
    obtain ⟨⟨v, aborted, asked⟩, sound, holds, heldThen, deep, target, noted, stands, here⟩ :=
      caught
    refine ⟨⟨v, aborted, (tidy.aborts v).trans asked⟩, ?_, ?_, ?_, deep, target,
      tidy.state.trans noted, ?_⟩ <;> rw [tidy.world]
    · exact sound.around _ fun c member => sound.held (lets c member)
    · exact (stays_handles start _ _).holds holds
    · exact subperm heldThen
    · exact ⟨(stays_handles start _ _).seats stands, here⟩

section Handle

variable {context : Context} {calls : Calls Unit (Option CursorId)} {search : Search}
  (v : VisitorId)

theorem handle_stop (inner : ((search.world.parent? c).bind search.world.parent?).isSome = true) :
    behaviour.handle calls v () c ⟨context, search⟩ = .error (.error (.aborted v))
      ⟨context, Session.requestAbort { search with state := some c } v⟩ := by
  simp only [behaviour, EStateM.bind, bind, Handling.session, Handling.onSession, get, getThe,
    MonadStateOf.get, get_apply]
  rw [if_pos inner]
  rfl

theorem handle_walk (outer : ((search.world.parent? c).bind search.world.parent?).isSome = false) :
    behaviour.handle calls v () c ⟨context, search⟩ =
      EStateM.bind (Handling.traverse calls v c) (fun _ => pure .traversed) ⟨context, search⟩ := by
  simp only [behaviour, EStateM.bind, bind, Handling.session, Handling.onSession, get, getThe,
    MonadStateOf.get, get_apply, outer, Bool.false_eq_true, if_false]

end Handle

theorem meets (type : NodeType) (start : World) : behaviour.Meets (terms type start) where
  reset _ _ _ search := ⟨search, ⟨.withState search search.state, .refl _ _⟩, rfl, rfl⟩
  handle calls v _ c context search path handlers _ sound holds stands rises _ := by
    by_cases deep : 2 ≤ path.length
    · have inside : v < search.visitors.size := by
        by_contra outside
        rw [Session.visitor, Array.getElem?_eq_none (Nat.le_of_not_lt outside)] at handlers
        cases handlers
      have asked := Session.visitor_modifyVisitor { search with state := some c } v
      rw [handle_stop v (rises.parents.trans (decide_eq_true deep))]
      refine .stops (fun w => ?_) ⟨⟨v, rfl, ?_⟩, sound, holds, .refl _, deep, c, rfl, stands,
        (Store.value_tree _ _).symm⟩
      · refine (congrArg Visitor.handlers (asked w _)).trans ?_
        split <;> rfl
      · exact congrArg Visitor.abortRequested ((asked v _).trans (if_pos ⟨rfl, inside⟩))
    · exact .of_traverse deep rfl ⟨.withState search search.state, .refl _ _⟩ rfl
        (handle_walk v (rises.parents.trans (decide_eq_false deep)))

/-! ### A visit from start to end -/

/-- A visit of what has no slots is over at once. -/
theorem dispatch_plain {search : Search} {v : VisitorId}
    (plain : ∀ id, search.world.value c ≠ .composite id) (enough : 2 ≤ turns) :
    (Visitor.calls behaviour turns).dispatch v c search = .ok (search.world.value c) search := by
  obtain ⟨more, rfl⟩ := Nat.exists_eq_add_of_le' enough
  have nobody : search.handler? v (search.world.value c) = none := by
    rw [Session.handler?, Store.Bare.type? (.inl plain)]
    rfl
  show Visitor.dispatch behaviour (Visitor.calls behaviour (more + 1)) v c search = _
  simp only [Visitor.dispatch, bind, EStateM.bind, get, getThe, MonadStateOf.get, get_apply, nobody]
  refine Visitor.traverse_plain ?_
  cases here : search.world.value c with
  | composite id => exact absurd here (plain id)
  | _ => rfl

/-- How a visit of the root ends: with nothing found below it, with a match, or with an object of
unknown type. -/
inductive Visited (type : NodeType) (before : Search) (path : List SlotName) (value : Value) :
    EStateM.Result (Halt VisitError) Search Value → Prop where
  | clear {result : Value} {after : Search} (tour : Tour type before after)
    (rested : (after.visitor 0).visiting = false) (state : after.state = none)
    (lacks : after.world.store.terrain.Lacks type value) :
    Visited type before path value (.ok result after)
  | found {result : Value} {after : Search} (tour : Tour type before after)
    (rested : (after.visitor 0).visiting = false)
    (found : Found type path value after) : Visited type before path value (.ok result after)
  | refused {shown : String} {after : Search} (unknown : Unknown before.world) :
    Visited type before path value (.error (.error (.unrecognizedType shown)) after)

section Visit

variable {before after : Search} {root : CursorId} (hunting : Hunting type before)

include hunting

theorem tour_finish (handlers : (after.visitor 0).handlers = (before.visitor 0).handlers)
    (sound : Sound after.world) (holds : (footing before.world).holds after.world)
    (held : (root :: before.world.held).Subperm after.world.held) :
    Tour type before (Visitor.finish 0 root after) := by
  have tidy := Stroll.tidied_finish 0 root after
  obtain ⟨⟨other, orderly⟩, tours⟩ := holds
  refine ⟨(tidy.handlers 0).trans (handlers.trans hunting.handlers), ?_, ?_⟩ <;> rw [tidy.world]
  · refine orderly.withHeld (tours.withHeld before.world.held other) hunting.orderly ?_ ?_
    · exact fun c member => (@subperm_foldl_erase [root] _ _ held).subset member
    · exact fun c member => sound.held (List.mem_of_mem_erase member)
  · exact tours.withHeld before.world.held _

variable (stands : before.world.Stands [name] root)

include stands

/-- The root is held, and so is what it stands in. -/
theorem rises_root {id : CompositeId} (here : before.world.value root = .composite id) :
    (before.world.hold root).Rises [name] root := by
  have orderly := hunting.orderly
  obtain ⟨parent, atTop, kept⟩ := follow?_concat.mp
    (show before.world.follow? 0 ([] ++ [name]) = some root from stands.leads here)
  cases atTop
  obtain ⟨above, bears, _⟩ := orderly.coherent.sound.kept kept
  refine @Rises.step (before.world.hold root) [] name root 0
    (.top orderly.coherent.present orderly.coherent.top ?_) above bears
    (isHeld_of_mem List.mem_cons_self)
  rw [isHeld, hold, List.any_cons]
  exact Bool.or_eq_true_iff.mpr (.inr orderly.held)

theorem visited_start (rested : (before.visitor 0).visiting = false)
    (affords : before.world.store.Affords (before.world.value root) turns) :
    Visited type before [name] (before.world.value root)
      ((Visitor.calls behaviour (turns + 1)).start 0 (.cursor root) [] before) := by
  have orderly := hunting.orderly
  have unshared : before.world.store.Unshared (before.world.value root) := stands.unshared orderly
  have whole := stands.whole orderly
  have holds : (footing before.world).holds before.world := ⟨⟨_, orderly⟩, .refl _⟩
  show Visited _ _ _ _ (Visitor.start behaviour (Visitor.calls behaviour turns) 0 (.cursor root) []
    before)
  rw [Stroll.start_eq _ _ rested]
  show Visited _ _ _ _ (Visitor.tidying (Visitor.finish 0 root) (Visitor.absorbed root
    ((Visitor.calls behaviour turns).dispatch 0 root (Stroll.started 0 root before))))
  by_cases composite : ∃ id, before.world.value root = .composite id
  case neg =>
    have plain id : before.world.value root ≠ .composite id := fun here => composite ⟨id, here⟩
    have bare : before.world.store.Bare (before.world.value root) := .inl plain
    have passes := Stroll.passes_started (terms type before.world) (v := 0)
      orderly.coherent.sound stands.inside
    rw [@dispatch_plain _ _ (Stroll.started 0 root before) 0 plain affords.two]
    refine .clear (tour_finish hunting (passes.handlers 0) passes.sound
      (passes.footing.holds holds) (.refl _)) (Visitor.visiting_finish 0 root _) hunting.state ?_
    rintro _ _ (_ | ⟨_, entry, _⟩) below
    · exact absurd rfl below
    · cases (bare.inner? _).symm.trans entry
  obtain ⟨id, here⟩ := composite
  obtain ⟨mid, reset, _, passes, _, ends⟩ := Stroll.ends_root (meets type before.world)
    orderly.coherent.sound holds stands hunting.handlers (rises_root hunting stands here) unshared
    whole affords []
  cases reset
  cases outcome : (Visitor.calls behaviour turns).dispatch 0 root (Stroll.started 0 root before) with
  | ok result after =>
    rw [outcome] at ends
    obtain ⟨logs, known⟩ := ends
    have passes := passes.trans logs.toPasses
    have tour := tour_finish hunting (passes.handlers 0) passes.sound
      (passes.footing.holds holds) logs.held
    refine .clear tour (Visitor.visiting_finish 0 root after) ?_ ?_
    · exact logs.log.trans ((List.foldl_fixed _).trans hunting.state)
    · refine (tour.tours.filled.lacks whole type).mpr fun rest part reached below => ?_
      by_contra differs
      rw [Store.isOf_terrain] at differs
      refine logs.goesOn ⟨_, Policy.mem_single_of_reaches unshared known reached
        (Bool.eq_true_of_not_eq_false differs), ?_⟩
      show 2 ≤ rest.length + 1
      have := List.length_pos_of_ne_nil below
      omega
  | error halt after =>
    rw [outcome] at ends
    rcases ends with ⟨logs, stuck, shown, rfl⟩ | stopped
    · refine .refused ?_
      obtain ⟨position, listed, unknown⟩ := List.all_eq_false.mp stuck
      obtain ⟨rest, part, rfl, there, _⟩ :=
        Stroll.exists_of_mem_positions unshared listed
      refine ⟨[name] ++ rest, part, ?_, ?_⟩
      · rw [Store.part?_append, orderly.coherent.part_of_follow (stands.leads here) here,
          Option.bind_some, ← here, there]
      · rw [← Store.isUnknown_tree (unshared.part there)]
        simpa [Position.isKnown] using unknown
    · obtain ⟨handlers, call, among, ⟨v, rfl, asked⟩, sound, holdsThen, held, deep, target, noted,
        standsThere, same⟩ := stopped
      have tour := tour_finish hunting ((handlers 0).trans (passes.handlers 0)) sound holdsThen held
      have filled := holdsThen.2.filled
      obtain ⟨rest, part, position, reached, isType⟩ := Policy.reaches_of_mem_single unshared among
      rw [position, Store.value_tree] at same
      rw [position] at deep standsThere
      obtain ⟨targetId, rfl⟩ := Store.composite_of_isOf isType
      rw [Visitor.absorbed, Session.isCancelled, asked]
      refine .found tour (Visitor.visiting_finish 0 root after) ⟨target, rest, noted, ?_, deep, ?_, ?_⟩
      · exact (follow?_withHeld _ _ _ _).trans (standsThere.leads same)
      · show after.world.store.terrain.Reaches _ _ _ (after.world.value target)
        rw [same]
        exact filled.reaches_of_before whole reached
      · show after.world.store.isOf type (after.world.value target) = true
        rw [same, filled.isOf (Store.Filled.known_of_whole
          (whole.part (Store.part?_of_reaches reached)))]
        exact isType

end Visit

end PruneAll

end CodeTree
