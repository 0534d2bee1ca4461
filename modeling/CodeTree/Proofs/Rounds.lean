/-
Round after round. A round looks for the first match and prunes it, and the rounds end when a visit
meets no match. What a round leaves is a world in good order, with the root at its cursor or gone,
and with less in stock: pruning takes a typed object away, and where mending an `if` adds one, the
`if` has lost its second branch. So there are no more rounds than the stock of the tree, and when
they end a walk comes to nothing of the type. Only an object of unknown type makes them fail.
-/

import CodeTree.Proofs.Felling
import CodeTree.Proofs.Searching

namespace CodeTree

variable {world : World} {store : Store} {value : Value} {document : Document}
  {path : List SlotName} {type : NodeType}

/-! ### Parts that count -/

/-- A part that passes a test counts. -/
theorem Tree.count_pos {test : Tree → Bool} {tree part : Tree} (keyed : tree.Keyed)
    (there : tree.at? path = some part) (passes : test part = true) : 0 < tree.count test := by
  induction path generalizing tree with
  | nil =>
    cases there
    rw [count_eq, passes, Bool.toNat_true]
    omega
  | cons name rest ih =>
    obtain ⟨next, entry, onward⟩ := Option.bind_eq_some_iff.mp there
    have stands : tree.at? [name] = some next := Option.bind_eq_some_iff.mpr ⟨next, entry, rfl⟩
    have below := countBelow_removed test keyed entry
    have deeper := ih (keyed.part stands) onward
    rw [count_eq]
    omega

namespace PruneAll

open World

theorem pos_of_unknown (orderly : Orderly world) (unknown : Unknown world) :
    0 < world.tree.count Tree.isUnknown := by
  obtain ⟨path, part, there, names⟩ := unknown
  have unshared : world.store.Unshared (world.value 0) := orderly.coherent.unshared
  have stands : world.tree.at? path = some (world.store.tree part) := by
    rw [tree, Store.at?_tree unshared, there]
    rfl
  exact Tree.count_pos (Store.keyed_tree unshared) stands
    ((Store.isUnknown_tree (Store.Unshared.part unshared there)).trans names)

/-! ### One round -/

/-- A session before a round. The root is in a slot of a holder that has no type. -/
structure Ready (type : NodeType) (search : Search) : Prop extends Hunting type search where
  rested : (search.visitor 0).visiting = false
  viewless : Viewless search.world
  stands : search.world.Stands [.key "root"] 1
  untyped : search.world.tree.type? = none

section Tour

variable {before after : Search} (orderly : Orderly before.world) (tour : Tour type before after)

include orderly tour

/-- What a visit fills in does not count. -/
theorem Tour.tree : after.world.tree.type? = before.world.tree.type? ∧
    after.world.tree.stock = before.world.tree.stock ∧
    after.world.tree.count Tree.isUnknown = before.world.tree.count Tree.isUnknown := by
  have filled := tour.tours.filled
  have unshared : before.world.store.Unshared (before.world.value 0) := orderly.coherent.unshared
  have unsharedAfter : after.world.store.Unshared (after.world.value 0) :=
    tour.orderly.coherent.unshared
  have sameRoot := tour.tours.value orderly.coherent.present
  rw [sameRoot] at unsharedAfter
  rw [World.tree, World.tree, sameRoot]
  refine ⟨?_, filled.stock_tree orderly.whole unshared unsharedAfter,
    filled.count_isUnknown orderly.whole unshared unsharedAfter⟩
  rw [Store.type?_tree unsharedAfter, Store.type?_tree unshared,
    filled.type? (Store.Filled.known_of_whole orderly.whole)]

end Tour

/-- A property of the tree outlasts visits and the pruning of matches. -/
structure Lasts (type : NodeType) (property : Tree → Prop) : Prop where
  tour : ∀ {before after}, Orderly before.world → Tour type before after →
    property before.world.tree → property after.world.tree
  prune : ∀ {tree old path}, tree.Keyed → tree.type? = none → path ≠ [] →
    tree.at? path = some old → old.isOf type = true → property tree →
      ∀ fresh, property (tree.prune fresh path)

section Round

variable {before : Search} (ready : Ready type before)

include ready

/-- There are turns enough for a visit of the root. -/
theorem Ready.affords : before.world.store.Affords (before.world.value 1)
    (2 * before.world.store.composites.size + 5) := by
  by_cases composite : ∃ id, before.world.value 1 = .composite id
  · obtain ⟨id, here⟩ := composite
    have there := ready.orderly.coherent.part_of_follow (ready.stands.leads here) here
    refine ⟨by omega, fun {path part} reached full => ?_⟩
    obtain ⟨inner, rfl⟩ : ∃ inner, part = .composite inner := by
      by_contra plain
      exact full (.inl fun inner equal => plain ⟨inner, equal⟩)
    have stood : before.world.store.part? (before.world.value 0) (.key "root" :: path) =
        some (.composite inner) := by
      rw [show SlotName.key "root" :: path = [.key "root"] ++ path from rfl, Store.part?_append,
        there, Option.bind_some, ← here, reached]
    obtain ⟨contents, present⟩ :=
      Option.ne_none_iff_exists'.mp (ready.orderly.whole _ inner stood)
    have bound := Store.Unshared.within ready.orderly.coherent.unshared stood present
    rw [Store.depthBound, List.length_cons] at bound
    omega
  · exact Store.affords_of_bare (.inl fun id here => composite ⟨id, here⟩) (by omega)

theorem Ready.visited : Visited type before [.key "root"] (before.world.value 1)
    (Visitor.visitFrom behaviour 1 before) :=
  visited_start ready.toHunting ready.stands ready.rested ready.affords

variable {after : Search} (tour : Tour type before after)
  (rested : (after.visitor 0).visiting = false)
  (found : Found type [.key "root"] (before.world.value 1) after)

include tour found

/-- A match is found by a walk from the root. -/
theorem Ready.not_lacks : ¬before.world.store.terrain.Lacks type (before.world.value 1) := by
  obtain ⟨target, rest, _, _, deep, reached, isType⟩ := found
  intro lacks
  have lacksAfter := (tour.tours.filled.lacks (ready.stands.whole ready.orderly) type).mpr lacks
  have verdict := lacksAfter rest _ reached (by rintro rfl; simp at deep)
  rw [Store.isOf_terrain, isType] at verdict
  cases verdict

include rested

/-- Pruning what has been found leaves a session that is ready again, with less in stock. -/
theorem Ready.next {property : Tree → Prop} (lasts : Lasts type property)
    (holds : property before.world.tree) :
    ∃ target remaining world, after.state = some target ∧
      Action.prune target after.world = .ok remaining world ∧
      Ready type { after with state := none, world } ∧
      world.tree.stock < before.world.tree.stock ∧
      world.tree.count Tree.isUnknown ≤ before.world.tree.count Tree.isUnknown ∧
      property world.tree := by
  obtain ⟨target, rest, noted, leads, deep, reached, isType⟩ := found
  obtain ⟨sameType, sameStock, sameUnknown⟩ := tour.tree ready.orderly
  have orderly := tour.orderly
  have untyped : after.world.tree.type? = none := sameType.trans ready.untyped
  have steady : after.world.tree.Steady := by
    constructor <;> rw [Tree.isOf, untyped] <;> rfl
  obtain ⟨id, here⟩ := Store.composite_of_isOf isType
  have below : [SlotName.key "root"] ++ rest ≠ [] := List.cons_ne_nil _ _
  obtain ⟨remaining, fresh, world, result, orderlyNext, viewless, keeps, _, pruned⟩ :=
    orderly.prune (tour.tours.viewless ready.viewless) steady leads below here
  -- The root was there to be walked from, and it stays unless it is pruned.
  have stands : world.Stands [.key "root"] 1 := by
    obtain ⟨rootId, root⟩ := Store.composite_of_reaches reached isType
    rw [← tour.tours.value ready.stands.inside] at root
    exact keeps (by decide) ((tour.tours.stands ready.stands).leads root)
  have keyed : after.world.tree.Keyed := Store.keyed_tree orderly.coherent.unshared
  have there := orderly.coherent.at?_of_composite leads here
  rw [← Store.isOf_tree (orderly.coherent.unshared_at leads here)] at isType
  obtain ⟨leaner, less⟩ := @Tree.leaner_prune after.world.tree _ _ keyed there
    (Tree.type?_ne_none isType) below fresh
  have lasting := lasts.prune keyed untyped below there isType (lasts.tour ready.orderly tour holds)
    fresh
  rw [← pruned] at leaner less lasting
  refine ⟨target, remaining, world, noted, result, ?_, ?_, ?_, lasting⟩
  · exact ⟨⟨tour.handlers, orderlyNext, rfl⟩, rested, viewless, stands,
      leaner.type.trans untyped⟩
  · exact Nat.lt_of_lt_of_eq less sameStock
  · exact Nat.le_trans leaner.unknown (Nat.le_of_eq sameUnknown)

end Round

/-! ### All rounds -/

section Equations

variable {root : CursorId} {before after : Search} {result : Value} (more pruned : Nat)

theorem rounds_clear (visit : Visitor.visitFrom behaviour root before = .ok result after)
    (state : after.state = none) : rounds root (more + 1) pruned before = .ok pruned after := by
  simp only [rounds, bind, EStateM.bind, get, getThe, MonadStateOf.get, get_apply, visit, state]
  rfl

theorem rounds_found (visit : Visitor.visitFrom behaviour root before = .ok result after)
    {target : CursorId} (state : after.state = some target)
    {remaining : Option CursorId} (prune : Action.prune target after.world = .ok remaining world) :
    rounds root (more + 1) pruned before =
      rounds root more (pruned + 1) { after with state := none, world } := by
  simp only [rounds, bind, EStateM.bind, get, getThe, MonadStateOf.get, get_apply, visit, state]
  simp only [modify, modifyGet, MonadStateOf.modifyGet, modifyGet_apply, VisitAction.onWorld,
    prune]

theorem rounds_refused {halt : Halt VisitError}
    (visit : Visitor.visitFrom behaviour root before = .error halt after) :
    rounds root (more + 1) pruned before = .error halt after := by
  simp only [rounds, bind, EStateM.bind, get, getThe, MonadStateOf.get, get_apply, visit]

end Equations

/-- How the rounds end: with nothing of the type left below the root, and with a number that is
zero only if there was nothing and that is no larger than the stock; or with a refusal, which an
object of unknown type accounts for. -/
def Cleared (type : NodeType) (property : Tree → Prop) (before : Search) (pruned : Nat) :
    EStateM.Result (Halt VisitError) Search Nat → Prop
  | .ok total after => Orderly after.world ∧ after.world.Stands [.key "root"] 1 ∧
      after.world.store.terrain.Lacks type (after.world.value 1) ∧
      (total = pruned ↔ before.world.store.terrain.Lacks type (before.world.value 1)) ∧
      pruned ≤ total ∧ total ≤ pruned + before.world.tree.stock ∧ property after.world.tree
  | .error halt _ => (∃ shown, halt = .error (.unrecognizedType shown)) ∧
      0 < before.world.tree.count Tree.isUnknown

/-- As many rounds as there is stock are enough, with one more to find that nothing is left. -/
theorem cleared_rounds {property : Tree → Prop} (lasts : Lasts type property) {before : Search}
    (ready : Ready type before) {more : Nat} (enough : before.world.tree.stock < more)
    (holds : property before.world.tree) (pruned : Nat) :
    Cleared type property before pruned (rounds 1 more pruned before) := by
  induction more generalizing before pruned with
  | zero => exact absurd enough (Nat.not_lt_zero _)
  | succ more ih =>
    have visited := ready.visited
    generalize visit : Visitor.visitFrom behaviour 1 before = outcome at visited
    cases visited with
    | clear tour _ state lacks =>
      have lacksBefore := (tour.tours.filled.lacks (ready.stands.whole ready.orderly) type).mp lacks
      rw [← tour.tours.value ready.stands.inside] at lacks
      rw [rounds_clear more pruned visit state]
      exact ⟨tour.orderly, tour.tours.stands ready.stands, lacks, iff_of_true rfl lacksBefore,
        Nat.le_refl _, Nat.le_add_right _ _, lasts.tour ready.orderly tour holds⟩
    | found tour rested found =>
      obtain ⟨target, remaining, world, state, prune, readyNext, less, unknown, holdsNext⟩ :=
        ready.next tour rested found lasts holds
      have matched := ready.not_lacks tour found
      have onward := ih readyNext
        (Nat.lt_of_lt_of_le less (Nat.lt_succ_iff.mp enough)) holdsNext (pruned + 1)
      rw [rounds_found more pruned visit state prune]
      generalize rounds 1 more (pruned + 1) _ = outcome at onward
      cases outcome with
      | ok total last =>
        obtain ⟨orderly, stands, lacks, _, least, most, holdsLast⟩ := onward
        dsimp only at most
        exact ⟨orderly, stands, lacks, iff_of_false (by omega) matched, by omega, by omega,
          holdsLast⟩
      | error halt last =>
        obtain ⟨refused, positive⟩ := onward
        exact ⟨refused, Nat.lt_of_lt_of_le positive unknown⟩
    | refused unknown =>
      rw [rounds_refused more pruned visit]
      exact ⟨⟨_, rfl⟩, pos_of_unknown ready.orderly unknown⟩

/-! ### The holder of the root -/

/-- The contents of a holder. -/
def holding (value : Value) : Composite := .object (.ofList [("root", value)])

theorem wraps_holding (value : Value) : (holding value).Wraps (.key "root") value := by
  apply Composite.wraps_ofList <;> simp

/-- A world with a cursor at the holder of a value, and nothing else. -/
def rooted (store : Store) (value : Value) (held : List CursorId) : World :=
  { ((⟨store.grown (holding value), #[], #[], []⟩ : World).addRoot
      (.composite store.composites.size)).2 with held }

theorem child_rooted (store : Store) (value : Value) (held : List CursorId) :
    (rooted store value held).child 0 (.key "root") =
      (rooted store value held).addChild 0 (.key "root") value := by
  have present : (rooted store value held).store.contents? ((rooted store value held).value 0) =
    some (holding value) := store.contents?_grown_self _
  have named := Store.normalName_object present (.key "root")
  have entry : (rooted store value held).store.inner? ((rooted store value held).value 0)
      (.key "root") = some value := Store.inner?_of_contents present (.key "root")
  rcases child_cases (rooted store value held) 0 (.key "root") with ⟨_, there, _⟩ | ⟨_, result⟩
  · rw [named] at there
    cases there
  · rw [result, named, SlotName.text, Store.slot_of_inner? entry]

/-- The world before the first round. -/
def heldRoot (store : Store) (value : Value) : World :=
  ((rooted store value []).addChild 0 (.key "root") value).2.hold 1

section Start

variable (intact : store.Intact value) (fits : store.Fits)

include intact

theorem tree_heldRoot : (heldRoot store value).tree =
    .object store.composites.size [("root", store.tree value)] :=
  (wraps_holding value).tree intact

include fits

theorem orderly_heldRoot : Orderly (heldRoot store value) ∧ Viewless (heldRoot store value) ∧
    (heldRoot store value).Stands [.key "root"] 1 := by
  have new := (wraps_holding value).intact_new intact
  have run : Run (rooted store value [0]) := .start #[] new.unshared new.free
  have present : (rooted store value [0]).store.contents? ((rooted store value [0]).value 0) =
    some (holding value) := store.contents?_grown_self _
  have unlimited {items : List Value} (array : holding value = .array items) :
      items.length < indexBound := by cases array
  have orderly : Orderly (rooted store value [0]) :=
    ⟨coherent_start #[] new.unshared new.free, rfl, Store.Fits.grown _ fits unlimited, new.whole⟩
  have start : (rooted store value [0]).follow? 0 [] = some 0 := rfl
  obtain ⟨orderlyChild, looks, leads, _⟩ := orderly.child start
    (Store.normalName_object present (.key "root")) (by
      intro items position array
      cases present.symm.trans array)
  rw [child_rooted] at orderlyChild looks leads
  have sound := orderlyChild.coherent.sound
  have inside : 1 < (heldRoot store value).cursors.size := by
    show 1 < ((rooted store value []).addChild 0 (.key "root") value).2.cursors.size
    rw [size_addChild]
    exact Nat.lt_succ_self 1
  refine ⟨⟨orderlyChild.coherent.handles ?_, ?_, orderlyChild.fits, orderlyChild.whole⟩,
    looks.quiet.viewless run.viewless, inside, fun _ => ?_⟩
  · intro c member
    cases List.mem_singleton.mp member
    exact inside
  · -- The cursor that is held comes from the holder.
    have origin := sound.origin_of_follow leads
    rw [sound.topmost orderlyChild.coherent.present orderlyChild.coherent.top] at origin
    have below : ((heldRoot store value).cursor 1).root = 0 := origin
    refine List.any_eq_true.mpr ⟨1, List.mem_cons_self, ?_⟩
    show (false || ((heldRoot store value).cursor 1).root == 0) = true
    rw [below]
    rfl
  · exact (follow?_withHeld _ [1] 0 _).trans leads

end Start

/-! ### From a document to a document -/

theorem addHeldBy_eq (store : Store) (value : Value) :
    ({ World.empty with store } : World).addHeldBy value =
      (rooted store value []).addChild 0 (.key "root") value :=
  child_rooted store value []

/-- The session before the first round over a value. -/
def begun (type : NodeType) (store : Store) (value : Value) : Search where
  world := heldRoot store value
  visitors := #[.ofHandlers [(type, ())]]
  state := none

section Document

theorem session_ofDocument (loaded : (Store.load document).run Store.empty = (value, store)) :
    Session.ofDocument type () (none : Option CursorId) document =
      (value, { begun type store value with world := { World.empty with store } }) := by
  simp only [Session.ofDocument, World.ofDocument, loaded]
  rfl

/-- The root is put into its holder, and held. -/
theorem updateWorld_begun :
    (HasWorld.updateWorld (fun world : World =>
      ((world.addHeldBy value).1, (world.addHeldBy value).2.hold (world.addHeldBy value).1)) :
      VisitAction Unit (Option CursorId) CursorId)
        { begun type store value with world := { World.empty with store } } =
      .ok 1 (begun type store value) := by
  have added := addHeldBy_eq store value
  generalize ({ World.empty with store } : World) = bare at added ⊢
  show EStateM.Result.ok (bare.addHeldBy value).1 { begun type store value with
    world := (bare.addHeldBy value).2.hold (bare.addHeldBy value).1 } = _
  rw [added]
  rfl

/-- The answer when the rounds have ended. -/
def answer : EStateM.Result (Halt VisitError) Search Nat → Except (Halt VisitError) (Nat × Document)
  | .ok pruned after => .ok (pruned, after.world.store.document (after.world.value 1))
  | .error halt _ => .error halt

theorem ofDocument_eq (loaded : (Store.load document).run Store.empty = (value, store)) :
    ofDocument type document =
      answer (rounds 1 (roundBound (begun type store value).world) 0 (begun type store value)) := by
  unfold ofDocument
  rw [session_ofDocument loaded]
  simp only [visit, bind, EStateM.bind, updateWorld_begun, get, getThe, MonadStateOf.get, get_apply]
  cases rounds 1 (roundBound (begun type store value).world) 0 (begun type store value) <;> rfl

end Document

/-! ### Counts of a document -/

section Covers

variable (store : Store)

/-- Only arrays and objects can pass a test by a glance at what stands under their keys. -/
theorem covers_isComposite {test : Tree → Bool} (glances : Tree.Glances test) :
    store.Covers Document.isComposite test := by
  intro document value holds _ passes
  cases document with
  | array items => rfl
  | object members => rfl
  | _ =>
    cases holds
    rw [Store.tree_of_none rfl, glances.leaf] at passes
    cases passes

theorem covers_isTyped :
    store.Covers (fun part => (Document.terrain.type? part).isSome) Tree.isTyped := by
  intro document value holds unshared passes
  rw [Tree.isTyped, Store.type?_tree unshared, ← Store.type?_terrain] at passes
  show (Document.terrain.type? document).isSome = true
  rw [(Store.similar_holds store).type? holds]
  exact passes

theorem covers_isForked : store.Covers (Document.terrain.isOf .ifStatement) Tree.isForked := by
  intro document value holds unshared passes
  rw [Tree.isForked, Store.isOf_tree unshared, ← Store.isOf_terrain, Bool.and_eq_true] at passes
  rw [(Store.similar_holds store).isOf holds]
  exact passes.1

theorem covers_isUnknown : store.Covers Document.terrain.isUnknown Tree.isUnknown := by
  intro document value holds unshared passes
  rw [Store.isUnknown_tree unshared] at passes
  rw [(Store.similar_holds store).isUnknown holds]
  exact passes

end Covers

/-- A holder counts for nothing but what it holds. -/
theorem count_holder {test : Tree → Bool} {id : CompositeId} {tree : Tree}
    (fails : test (.object id [("root", tree)]) = false) :
    (Tree.object id [("root", tree)]).count test = tree.count test := by
  rw [Tree.count, fails]
  simp [Tree.countMembers]

section Loaded

variable (loaded : Store.Loaded document .empty (value, store))

include loaded

/-- The stock of a loaded document, and how many of its objects have a type that is unknown. -/
theorem counts_heldRoot :
    (heldRoot store value).tree.stock ≤
      document.count (fun part => (Document.terrain.type? part).isSome) +
        document.count (Document.terrain.isOf .ifStatement) ∧
    (heldRoot store value).tree.stock < roundBound (heldRoot store value) ∧
    (heldRoot store value).tree.count Tree.isUnknown ≤
      document.count Document.terrain.isUnknown := by
  have intact : store.Intact value := loaded.brings.intact value List.mem_cons_self
  have unshared : store.Unshared value := intact.unshared
  have holds : store.Holds document value := loaded.holds
  have size : _ + document.count Document.isComposite ≤ store.composites.size := loaded.size
  have grown : (heldRoot store value).store.composites.size = store.composites.size + 1 :=
    Store.size_grown store _
  have composites {test : Tree → Bool} (glances : Tree.Glances test) :=
    Store.Holds.count_le (covers_isComposite store glances) holds unshared
  have typed := composites Tree.glances_isTyped
  have forked := composites Tree.glances_isForked
  rw [tree_heldRoot intact, Tree.stock, count_holder rfl, count_holder rfl, count_holder rfl]
  refine ⟨Nat.add_le_add ?_ ?_, ?_, ?_⟩
  · exact Store.Holds.count_le (covers_isTyped store) holds unshared
  · exact Store.Holds.count_le (covers_isForked store) holds unshared
  · rw [roundBound, grown]
    omega
  · exact Store.Holds.count_le (covers_isUnknown store) holds unshared

theorem ready_begun (type : NodeType) : Ready type (begun type store value) := by
  have intact := loaded.brings.intact value List.mem_cons_self
  obtain ⟨orderly, viewless, stands⟩ :=
    orderly_heldRoot intact (loaded.brings.fits Store.fits_empty)
  refine ⟨⟨rfl, orderly, rfl⟩, rfl, viewless, stands, ?_⟩
  show (heldRoot store value).tree.type? = none
  rw [tree_heldRoot intact]
  rfl

/-- The root looks to a walk as the document does. -/
theorem lacks_begun (type : NodeType) :
    (begun type store value).world.store.terrain.Lacks type ((begun type store value).world.value 1) ↔
      Document.terrain.Lacks type document := by
  have here : (begun type store value).world.value 1 = value := by
    show ((rooted store value []).addChild 0 (.key "root") value).2.value 1 = value
    rw [value_addChild]
    rfl
  rw [here]
  refine ((Store.similar_holds (store.grown (holding value))).lacks ?_ type).symm
  exact loaded.holds.extended (Store.extends_grown store _)

end Loaded

/-- How pruning all nodes of a type from a document ends. What lasts is so in the end if it is so of
a holder of the document. -/
theorem ofDocument_cases (type : NodeType) (proper : document.isProper = true)
    {property : Tree → Prop} (lasts : Lasts type property)
    (holds : ∀ {value store}, Store.Loaded document .empty (value, store) →
      property (heldRoot store value).tree) :
    (∃ pruned world, ofDocument type document = .ok (pruned, world.store.document (world.value 1)) ∧
      Orderly world ∧ world.Stands [.key "root"] 1 ∧
      world.store.terrain.Lacks type (world.value 1) ∧
      (pruned = 0 ↔ Document.terrain.Lacks type document) ∧
      pruned ≤ document.count (fun part => (Document.terrain.type? part).isSome) +
        document.count (Document.terrain.isOf .ifStatement) ∧ property world.tree) ∨
    ∃ shown, ofDocument type document = .error (.error (.unrecognizedType shown)) ∧
      0 < document.count Document.terrain.isUnknown := by
  have loaded := Store.loaded document proper Store.empty
  cases load : (Store.load document).run Store.empty with
  | mk value store =>
  rw [load] at loaded
  obtain ⟨stock, enough, unknown⟩ := counts_heldRoot loaded
  have cleared : Cleared type property (begun type store value) 0
      (rounds 1 (roundBound (begun type store value).world) 0 (begun type store value)) :=
    cleared_rounds lasts (ready_begun loaded type) enough (holds loaded) 0
  rw [ofDocument_eq load]
  generalize rounds 1 (roundBound (begun type store value).world) 0 (begun type store value) =
    outcome at cleared ⊢
  cases outcome with
  | ok pruned after =>
    obtain ⟨orderly, stands, lacks, none, _, most, last⟩ := cleared
    rw [lacks_begun loaded] at none
    rw [Nat.zero_add] at most
    exact .inl ⟨pruned, after.world, rfl, orderly, stands, lacks, none, Nat.le_trans most stock, last⟩
  | error halt after =>
    obtain ⟨⟨shown, rfl⟩, positive⟩ := cleared
    exact .inr ⟨shown, rfl, Nat.lt_of_lt_of_le positive unknown⟩

/-- Pruning all nodes of a type from a document ends, and only an object whose type is unknown makes
it fail. What is left has nothing of the type that a walk comes to, apart from the root. The number
of rounds is zero just if a walk over the document comes to nothing of the type, and is no larger
than the number of its typed objects and its `if` statements. -/
theorem prunes_every_match (type : NodeType) {document : Document}
    (proper : document.isProper = true) :
    (∃ pruned tree, ofDocument type document = .ok (pruned, tree) ∧
      Document.terrain.Lacks type tree ∧
      (pruned = 0 ↔ Document.terrain.Lacks type document) ∧
      pruned ≤ document.count (fun part => (Document.terrain.type? part).isSome) +
        document.count (Document.terrain.isOf .ifStatement)) ∨
    ∃ shown, ofDocument type document = .error (.error (.unrecognizedType shown)) ∧
      0 < document.count Document.terrain.isUnknown := by
  have always : Lasts type fun _ => True := ⟨fun _ _ => id, fun _ _ _ _ _ holds _ => holds⟩
  rcases ofDocument_cases type proper always fun _ => trivial with
    ⟨pruned, world, ended, orderly, stands, lacks, none, most, _⟩ | refused
  · refine .inl ⟨pruned, _, ended, ?_, none, most⟩
    exact ((Store.similar_documentTo world.store).lacks
      ⟨_, Store.Unshared.within (stands.unshared orderly), rfl⟩ type).mpr lacks
  · exact .inr refused

/-- `if (a) {} else {}` -/
def twoBlocks : Document :=
  .nodeOf .program [("body", .array [.nodeOf .ifStatement [("test", .nameOf "a"),
    ("consequent", .nodeOf .blockStatement [("body", .array [])]),
    ("alternate", .nodeOf .blockStatement [("body", .array [])])]])]

/-- Both branches are pruned, although the second takes the place of the first. -/
theorem prunes_both_branches : twoBlocks.isProper = true ∧
    ∃ pruned tree, ofDocument .blockStatement twoBlocks = .ok (pruned, tree) ∧
      Document.terrain.Lacks .blockStatement tree ∧ 0 < pruned ∧ pruned ≤ 6 := by
  refine ⟨rfl, ?_⟩
  rcases @prunes_every_match .blockStatement twoBlocks rfl with
    ⟨pruned, tree, ended, lacks, none, most⟩ | ⟨_, _, positive⟩
  · refine ⟨pruned, tree, ended, lacks, Nat.pos_of_ne_zero fun zero => ?_, most⟩
    have reached : Document.terrain.Reaches NodeType.blockStatement.includesComments twoBlocks
        [.key "body", .index 0, .key "consequent"] _ :=
      .step rfl rfl (.step rfl rfl (.step rfl rfl (.here _)))
    have missed := none.mp zero _ _ reached (List.cons_ne_nil _ _)
    cases missed
  · exact absurd positive (Nat.lt_irrefl 0)

end PruneAll

end CodeTree
