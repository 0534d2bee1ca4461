/-
What pruning takes away, and what it leaves. Around a slot stand the nodes that pruning climbs. As
long as each of them is hollow once the one before it is gone, it goes as well; the first that is
not stays, and is mended if it is an `if`. In every world in good order whose cursors remember
nothing false, pruning comes to this, unless it comes to the root: the root has no slot that could
be emptied or filled, so that pruning is refused, but what has been removed by then stays removed.
-/

import CodeTree.Proofs.Pruning
import CodeTree.Proofs.Surroundings

namespace CodeTree

variable {path above : List SlotName} {around : List (List SlotName)} {tree : Tree}

variable {after mid world : World} {old : Tree} {c parent : CursorId} {front rest : List SlotName}
  {name : SlotName}

namespace Tree

/-! ### The nodes around a slot -/

/-- The paths to the nodes that pruning climbs from a slot, from the inside out. For a slot that
holds no node, the nearest node around it is the slot's own, and it is passed over. -/
def ancestors (tree : Tree) (path : List SlotName) : List (List SlotName) :=
  ((path :: fronts path).filter tree.nodeAt).tail

theorem parentNode?_eq (tree : Tree) (path : List SlotName) :
    tree.parentNode? path = (tree.ancestors path).head? := by
  rw [ancestors, List.head?_tail, World.getElem?_one_filter_cons]
  rfl

/-- Behind the nearest node that encloses a path come the nodes around that node. -/
theorem filter_fronts {test : List SlotName → Bool}
    (found : (path :: fronts path).filter test = above :: around) :
    test above = true ∧ around = (fronts above).filter test ∧ above <+: path := by
  induction path using List.reverseRecOn with
  | nil =>
    cases holds : test [] with
    | true =>
      rw [List.filter_cons_of_pos holds] at found
      cases found
      exact ⟨holds, rfl, List.prefix_rfl⟩
    | false =>
      rw [List.filter_cons_of_neg (by simp [holds])] at found
      cases found
  | append_singleton front slot ih =>
    cases holds : test (front ++ [slot]) with
    | true =>
      rw [List.filter_cons_of_pos holds] at found
      cases found
      exact ⟨holds, rfl, List.prefix_rfl⟩
    | false =>
      rw [List.filter_cons_of_neg (by simp [holds]), fronts_concat] at found
      obtain ⟨isNode, rest, within⟩ := ih found
      exact ⟨isNode, rest, within.trans (List.prefix_append _ _)⟩

theorem prefix_of_mem_fronts (member : front ∈ path :: fronts path) : front <+: path := by
  rcases List.mem_cons.mp member with rfl | member
  · exact List.prefix_rfl
  · obtain ⟨_, _, equal⟩ := mem_fronts member
    exact ⟨_, equal.symm⟩

theorem ancestors_of_nodeAt (isNode : tree.nodeAt path = true) :
    tree.ancestors path = (fronts path).filter tree.nodeAt := by
  rw [ancestors, List.filter_cons_of_pos isNode, List.tail_cons]

/-- The first ancestor is a node that encloses the slot, and what stands in one of its own slots
was not passed over. -/
theorem ancestors_eq_cons (found : tree.ancestors path = above :: around) :
    tree.nodeAt above = true ∧ around = (fronts above).filter tree.nodeAt ∧
      ∃ name rest, path = above ++ name :: rest ∧ (rest = [] → tree.nodeAt path = true) := by
  cases enclosing : (path :: fronts path).filter tree.nodeAt with
  | nil =>
    rw [ancestors, enclosing] at found
    cases found
  | cons own outer =>
    rw [ancestors, enclosing, List.tail_cons] at found
    subst found
    obtain ⟨isNode, outside, ⟨inside, rfl⟩⟩ := filter_fronts enclosing
    rcases List.eq_nil_or_concat own with rfl | ⟨front, slot, rfl⟩
    · cases outside
    · rw [List.concat_eq_append] at outside isNode ⊢
      rw [fronts_concat] at outside
      obtain ⟨isNodeAbove, rest, ⟨between, rfl⟩⟩ := filter_fronts outside.symm
      refine ⟨isNodeAbove, rest, ?_⟩
      cases between with
      | nil => exact ⟨slot, inside, by simp, fun empty => by rwa [empty, List.append_nil]⟩
      | cons name beyond => exact ⟨name, beyond ++ slot :: inside, by simp, fun empty => by simp at empty⟩

/-! ### Nodes after a removal -/

theorem at?_graft_append (tree new : Tree) (front rest : List SlotName) :
    (tree.graft (front ++ rest) new).at? front = (tree.at? front).map (·.graft rest new) := by
  induction front generalizing tree with
  | nil => rfl
  | cons name front ih =>
    rw [List.cons_append, at?, inner?_graft, if_pos rfl, at?]
    cases tree.inner? name with
    | none => rfl
    | some next => exact ih next

/-- What stands on the way to a replacement is what stood there, with the replacement made. -/
theorem at?_replaceAt (tree : Tree) (front : List SlotName) (name : SlotName)
    (rest : List SlotName) (trees : List Tree) :
    (tree.replaceAt (front ++ name :: rest) trees).at? front =
      (tree.at? front).map (·.replaceAt (name :: rest) trees) := by
  obtain ⟨upper, slot, split⟩ : ∃ upper slot, name :: rest = upper ++ [slot] :=
    ⟨_, _, (List.dropLast_append_getLast (List.cons_ne_nil name rest)).symm⟩
  rw [split, ← List.append_assoc, replaceAt_concat, exchange, at?_append]
  cases reached : tree.at? front with
  | none => exact reached
  | some part =>
    rw [Option.bind_some, Option.map_some, replaceAt_concat, exchange]
    cases part.at? upper with
    | none => exact reached
    | some holder => rw [Option.elim, Option.elim, at?_graft_append, reached, Option.map_some]

/-- A removal leaves the type of what it is made in, unless the name of the type goes. -/
theorem type?_replaceAt
    (wordless : rest = [] → ∃ old, tree.inner? name = some old ∧ old.text? = none) :
    (tree.replaceAt (name :: rest) []).type? = tree.type? := by
  rcases List.eq_nil_or_concat rest with rfl | ⟨beyond, slot, rfl⟩
  · obtain ⟨old, stood, silent⟩ := wordless rfl
    exact type?_exchangeSlot stood silent nofun
  · rw [List.concat_eq_append, ← List.cons_append, replaceAt_concat, exchange]
    cases reached : tree.at? (name :: beyond) with
    | none => rfl
    | some holder => exact type?_graft reached (value_exchangeSlot slot [] holder)

theorem Steady.removed (steady : tree.Steady) (below : path ≠ []) (there : tree.at? path = some old)
    (wordless : old.text? = none) : (tree.replaceAt path []).Steady := by
  obtain ⟨name, rest, rfl⟩ := List.exists_cons_of_ne_nil below
  refine steady.of_type? (type?_replaceAt fun last => ⟨old, ?_, wordless⟩)
  subst last
  simpa only [at?, Option.bind_fun_some] using there

theorem text?_of_isNode (isNode : tree.isNode = true) : tree.text? = none := by
  obtain ⟨id, members, rfl⟩ := exists_object (type?_ne_none isNode)
  rfl

section Removal

variable (split : path = above ++ name :: rest) (whole : rest = [] → tree.nodeAt path = true)

include split whole

/-- The nodes on the way to an ancestor are those that there were. -/
theorem nodeAt_replaceAt (within : front <+: above) :
    (tree.replaceAt path []).nodeAt front = tree.nodeAt front := by
  obtain ⟨between, rfl⟩ := within
  obtain ⟨step, beyond, onward, last⟩ : ∃ step beyond, between ++ name :: rest = step :: beyond ∧
      (beyond = [] → rest = []) := by
    cases between with
    | nil => exact ⟨name, rest, rfl, id⟩
    | cons step between => exact ⟨step, between ++ name :: rest, rfl, fun empty => by simp at empty⟩
  rw [List.append_assoc, onward] at split
  rw [split, nodeAt, nodeAt, at?_replaceAt]
  cases reached : tree.at? front with
  | none => rfl
  | some part =>
    have same : (part.replaceAt (step :: beyond) []).type? = part.type? := by
      refine type?_replaceAt fun empty => ?_
      have isNode := whole (last empty)
      rw [split, nodeAt, at?_append, reached, Option.bind_some, empty] at isNode
      obtain ⟨old, stood, isNode⟩ := (Option.any_eq_true _ _).mp isNode
      simp only [at?, Option.bind_fun_some] at stood
      exact ⟨old, stood, text?_of_isNode isNode⟩
    rw [Option.map_some, Option.any_some, Option.any_some, isNode, isNode, isOf, isOf, same]

theorem ancestors_replaceAt (within : front <+: above) :
    (tree.replaceAt path []).ancestors front = tree.ancestors front := by
  rw [ancestors, ancestors]
  refine congrArg List.tail (List.filter_congr fun place member => ?_)
  exact nodeAt_replaceAt split whole ((prefix_of_mem_fronts member).trans within)

end Removal

/-- When a slot is gone, the ancestors of its first ancestor are the others. -/
theorem ancestors_removed (found : tree.ancestors path = above :: around) :
    (tree.replaceAt path []).ancestors above = around := by
  obtain ⟨isNode, outer, _, _, split, whole⟩ := ancestors_eq_cons found
  rw [ancestors_replaceAt split whole List.prefix_rfl, ancestors_of_nodeAt isNode, outer]

/-! ### What goes and what stays -/

/-- Those first ancestors of a slot of which each is hollow when the one before it is gone. -/
def emptied (tree : Tree) (path : List SlotName) : List (List SlotName) → List (List SlotName)
  | [] => []
  | above :: around =>
    if ((tree.replaceAt path []).at? above).any isHollow then
      above :: (tree.replaceAt path []).emptied above around
    else []

/-- The ancestors that go with a slot. -/
def gone (tree : Tree) (path : List SlotName) : List (List SlotName) :=
  tree.emptied path (tree.ancestors path)

/-- The nearest ancestor that stays. -/
def survivor? (tree : Tree) (path : List SlotName) : Option (List SlotName) :=
  (tree.ancestors path)[(tree.gone path).length]?

/-- The tree without a slot and the ancestors that go with it. -/
def left (tree : Tree) (path : List SlotName) : Tree :=
  (path :: tree.gone path).foldl (fun tree place => tree.replaceAt place []) tree

/-- The tree with the node at a place mended if it is an `if`. -/
def tidied (fresh : CompositeId) (tree : Tree) (place? : Option (List SlotName)) : Tree :=
  place?.elim tree fun place => (tree.at? place).elim tree fun node =>
    if node.isOf .ifStatement then Tree.mendIf fresh place node tree else tree

/-- Pruning comes to the root: the root itself has to go, or it is an `if` without branches, which
would have to give way to another statement. -/
def Stranded (tree : Tree) (path : List SlotName) : Prop :=
  [] ∈ path :: tree.gone path ∨ tree.survivor? path = some [] ∧
    (tree.left path).isOf .ifStatement = true ∧ (tree.left path).isReducible = true

section Climb

theorem gone_of_nil (found : tree.ancestors path = []) : tree.gone path = [] := by
  rw [gone, found, emptied]

variable (found : tree.ancestors path = above :: around)

include found

section Hollow

variable (hollow : ((tree.replaceAt path []).at? above).any isHollow = true)

include hollow

theorem gone_of_hollow : tree.gone path = above :: (tree.replaceAt path []).gone above := by
  rw [gone, found, emptied, if_pos hollow, gone, ancestors_removed found]

theorem survivor?_of_hollow : tree.survivor? path = (tree.replaceAt path []).survivor? above := by
  rw [survivor?, survivor?, gone_of_hollow found hollow, ancestors_removed found, found]
  rfl

theorem left_of_hollow : tree.left path = (tree.replaceAt path []).left above := by
  rw [left, gone_of_hollow found hollow]
  rfl

end Hollow

variable (firm : ((tree.replaceAt path []).at? above).any isHollow = false)

include firm

theorem gone_of_firm : tree.gone path = [] := by
  rw [gone, found, emptied, if_neg (by simp [firm])]

theorem survivor?_of_firm : tree.survivor? path = some above := by
  rw [survivor?, gone_of_firm found firm, found]
  rfl

end Climb

theorem left_of_gone (nothing : tree.gone path = []) : tree.left path = tree.replaceAt path [] := by
  rw [left, nothing]
  rfl

theorem prefix_of_survivor? {place : List SlotName} (survives : tree.survivor? path = some place) :
    place <+: path :=
  prefix_of_mem_fronts
    (List.mem_of_mem_filter (List.mem_of_mem_tail (List.mem_of_getElem? survives)))

/-- The pruned tree is what is left, tidied up. -/
theorem prune_eq (fresh : CompositeId) (tree : Tree) (path : List SlotName) :
    tree.prune fresh path = (tree.left path).tidied fresh (tree.survivor? path) := by
  generalize found : tree.ancestors path = around
  induction around generalizing tree path with
  | nil =>
    rw [prune, parentNode?_eq, found, left_of_gone (gone_of_nil found), survivor?, found]
    rfl
  | cons above around ih =>
    obtain ⟨_, _, name, rest, split, _⟩ := ancestors_eq_cons found
    have shorter : above.length < path.length := by
      rw [split, List.length_append, List.length_cons]
      omega
    rw [prune, parentNode?_eq, found, List.head?_cons]
    dsimp only
    cases firm : ((tree.replaceAt path []).at? above).any isHollow with
    | true =>
      rw [left_of_hollow found firm, survivor?_of_hollow found firm,
        ← ih _ _ (ancestors_removed found)]
      obtain ⟨node, there, hollow⟩ := (Option.any_eq_true _ _).mp firm
      rw [there]
      dsimp only
      rw [if_pos hollow, if_pos shorter]
    | false =>
      rw [left_of_gone (gone_of_firm found firm), survivor?_of_firm found firm, tidied, Option.elim]
      cases there : (tree.replaceAt path []).at? above with
      | none => rfl
      | some node =>
        rw [there, Option.any_some] at firm
        dsimp only [Option.elim]
        rw [if_neg (by simp [firm])]

/-- Pruning does not come to a steady root, and leaves it steady. -/
theorem Steady.left (steady : tree.Steady) (below : path ≠ []) (there : tree.at? path = some old)
    (wordless : old.text? = none) : [] ∉ path :: tree.gone path ∧ (tree.left path).Steady := by
  generalize found : tree.ancestors path = around
  induction around generalizing tree path old with
  | nil =>
    have nothing := gone_of_nil found
    rw [nothing, left_of_gone nothing, List.mem_singleton]
    exact ⟨Ne.symm below, steady.removed below there wordless⟩
  | cons above around ih =>
    have steadyMid := steady.removed below there wordless
    obtain ⟨isNode, _, _, _, split, whole⟩ := ancestors_eq_cons found
    rw [← nodeAt_replaceAt split whole List.prefix_rfl] at isNode
    obtain ⟨node, stands, isNode⟩ := (Option.any_eq_true _ _).mp isNode
    cases firm : ((tree.replaceAt path []).at? above).any isHollow with
    | true =>
      have lower : above ≠ [] := by
        rintro rfl
        rw [at?, Option.any_some, steadyMid.not_isHollow] at firm
        cases firm
      obtain ⟨free, left⟩ := ih steadyMid lower stands (text?_of_isNode isNode)
        (ancestors_removed found)
      rw [gone_of_hollow found firm, left_of_hollow found firm, List.mem_cons, not_or]
      exact ⟨⟨Ne.symm below, free⟩, left⟩
    | false =>
      have nothing := gone_of_firm found firm
      rw [nothing, left_of_gone nothing, List.mem_singleton]
      exact ⟨Ne.symm below, steadyMid⟩

end Tree

namespace World

/-! ### What cursors remember of their parent nodes -/

theorem modifyViews_id (world : World) (c : CursorId) : world.modifyViews c id = world := by
  refine congrArg (fun cursors => { world with cursors }) (Array.ext_getElem? fun d => ?_)
  rw [Array.getElem?_modify]
  split
  · exact congrFun Option.map_id _
  · rfl

/-- What the cursors on the way to the end of a path remember of their parent nodes is true. -/
def Recalls (world : World) (path : List SlotName) : Prop :=
  ∀ {front d answer}, front <+: path → world.follow? 0 front = some d →
    (world.cursor d).views.parent? = some answer →
    answer = (world.tree.ancestors front).head?.bind (world.follow? 0)

theorem Viewless.recalls (viewless : Viewless world) : world.Recalls path := by
  intro front d answer _ _ remembered
  rw [viewless d] at remembered
  cases remembered

namespace Orderly

variable (orderly : Orderly world) (leads : world.follow? 0 path = some c)

include orderly leads

theorem freshParent?_eq :
    world.freshParent? c = (world.tree.ancestors path).head?.bind (world.follow? 0) := by
  have related := orderly.freshParent? leads
  rw [Tree.parentNode?_eq] at related
  generalize (world.tree.ancestors path).head? = found at related
  generalize world.freshParent? c = climbed at related
  cases related with
  | none => rfl
  | some toParent => exact toParent.symm

/-- Asked for its parent node, a cursor gives the first ancestor. -/
theorem parentNode (recalls : world.Recalls path) : ∃ change, world.parentNode c =
    ((world.tree.ancestors path).head?.bind (world.follow? 0), world.modifyViews c change) := by
  have climbed := orderly.freshParent?_eq leads
  unfold World.parentNode
  cases remembered : (world.cursor c).views.parent? with
  | none => exact ⟨_, by rw [climbed]⟩
  | some answer =>
    have same := recalls List.prefix_rfl leads remembered
    cases answer with
    | none => exact ⟨id, by rw [← same, modifyViews_id]⟩
    | some parent =>
      dsimp only
      split
      · exact ⟨id, by rw [← same, modifyViews_id]⟩
      · exact ⟨_, by rw [climbed]⟩

end Orderly

/-! ### Pruning -/

/-- A cursor in a slot of a container that can be removed. -/
def Removable (world : World) (path : List SlotName) (c : CursorId) : Prop :=
  ∃ front slot parent contents, path = front ++ [slot] ∧
    world.Standing front slot c parent contents ∧ contents.Takes slot []

theorem Orderly.removable (orderly : Orderly world) {id : CompositeId}
    (leads : world.follow? 0 path = some c) (below : path ≠ [])
    (here : world.value c = .composite id) : world.Removable path c := by
  rcases List.eq_nil_or_concat path with rfl | ⟨front, slot, rfl⟩
  · exact absurd rfl below
  rw [List.concat_eq_append] at leads ⊢
  have there := orderly.coherent.part_of_follow leads here
  obtain ⟨parent, contents, standing, takes, _⟩ := orderly.coherent.standing leads
    (by rw [there]; exact Option.some_ne_none _) [] fun _ _ => Nat.zero_le 1
  exact ⟨front, slot, parent, contents, rfl, standing, takes⟩

/-- From one world to another, a slot has been removed. -/
structure Removes (path : List SlotName) (before after : World) : Prop where
  orderly : Orderly after
  quiet : Quiet before after
  root : after.value 0 = before.value 0
  tree : after.tree = before.tree.replaceAt path []
  survives : ∀ {name rest front d}, path = front ++ name :: rest →
    before.follow? 0 front = some d → after.follow? 0 front = some d ∧ after.value d = before.value d
  keeps : KeepsTop before after
  top : ∀ {key d}, path ≠ [.key key] → key ≠ "length" → before.follow? 0 [.key key] = some d →
    after.follow? 0 [.key key] = some d

/-- A slot is removed in the same way whatever its cursor remembers of its surroundings, which is
forgotten before anything else happens. -/
theorem Orderly.replace_modifyViews (orderly : Orderly world) {slot : SlotName}
    (toParent : world.follow? 0 front = some parent) (kept : world.kept? parent slot = some c)
    (change : Views → Views) :
    Action.replace c [] (world.modifyViews c change) = Action.replace c [] world := by
  have above := (orderly.coherent.sound.kept kept).1
  have living := parent?_of_above? above (orderly.alive toParent)
  have livingStill : (world.modifyViews c change).parent? c = some parent := by
    refine parent?_of_above? (((alike_modifyViews world c change).above c).trans above) ?_
    refine (orderly.modifyViews c change).alive ((follow?_congr ?_ _ _).trans toParent)
    exact kept?_modifyViews world c change
  rw [Action.replace_of_some livingStill, Action.replace_of_some living, withoutViews_modifyViews]

theorem Orderly.remove (orderly : Orderly world) (removable : world.Removable path c)
    (change : Views → Views) :
    ∃ cs after, Action.replace c [] (world.modifyViews c change) = .ok cs after ∧
      Removes path world after := by
  obtain ⟨front, slot, parent, contents, rfl, standing, takes⟩ := removable
  obtain ⟨cs, after, result, orderlyAfter, exchanges, keeps, _⟩ := orderly.replace standing takes
    (Store.admits_nil _ _ _) nofun nofun (by
      intro items array
      exact Nat.le_of_lt (orderly.fits (array ▸ standing.present)))
  have same := orderly.replace_modifyViews standing.toParent standing.kept change
  have quiet := Action.isQuiet_replace c [] world
  rw [result] at quiet
  refine ⟨cs, after, same.trans result, orderlyAfter, quiet, exchanges.root, ?_, ?_, keeps, ?_⟩
  · rw [Tree.replaceAt_concat]
    exact exchanges.tree
  · intro name rest place d split leads
    refine exchanges.survives leads (SlotName.movePath_of_away fun step beyond equal => ?_)
    have length := congrArg List.length split
    rw [equal] at length
    simp only [List.length_append, List.length_cons, List.length_nil] at length
    omega
  · intro key d apart counted leads
    exact (exchanges.survives leads (movePath_top counted apart _)).1

section Removed

variable (removes : Removes path world mid) (found : world.tree.ancestors path = above :: around)

include removes found

/-- What goes on below the top leaves the top as it was. -/
theorem Removes.keepsTop (below : above ≠ []) (keeps : KeepsTop mid after) :
    KeepsTop world after := by
  intro key d counted toD
  refine keeps counted (removes.top ?_ counted toD)
  obtain ⟨_, _, name, rest, split, _⟩ := Tree.ancestors_eq_cons found
  intro single
  have length := congrArg List.length (split.symm.trans single)
  have long := List.length_pos_iff.mpr below
  simp only [List.length_append, List.length_cons, List.length_nil] at length
  omega

variable (leads : world.follow? 0 path = some c)

include leads

/-- The cursors on the way to the first ancestor stay where they were. -/
theorem Removes.stays (within : front <+: above) : ∃ d,
    world.follow? 0 front = some d ∧ mid.follow? 0 front = some d := by
  obtain ⟨_, _, name, rest, split, _⟩ := Tree.ancestors_eq_cons found
  obtain ⟨between, rfl⟩ := within
  obtain ⟨step, beyond, onward⟩ : ∃ step beyond, between ++ name :: rest = step :: beyond :=
    List.exists_cons_of_ne_nil (by simp)
  rw [List.append_assoc, onward] at split
  rw [split, follow?_append] at leads
  obtain ⟨d, toD, _⟩ := Option.bind_eq_some_iff.mp leads
  exact ⟨d, toD, (removes.survives split toD).1⟩

/-- What is remembered above a removed slot is still true. -/
theorem Removes.recalls (recalls : world.Recalls path) : mid.Recalls above := by
  obtain ⟨_, _, name, rest, split, whole⟩ := Tree.ancestors_eq_cons found
  intro front d answer within toD remembered
  obtain ⟨_, before, after⟩ := removes.stays found leads within
  cases after.symm.trans toD
  have remembered : (world.cursor d).views.parent? = some answer := by
    rcases removes.quiet.views d with same | empty
    · rwa [same] at remembered
    · rw [empty] at remembered
      cases remembered
  have onWay : front <+: path := within.trans ⟨_, split.symm⟩
  rw [recalls onWay before remembered, removes.tree, Tree.ancestors_replaceAt split whole within]
  cases outer : world.tree.ancestors front with
  | nil => rfl
  | cons place others =>
    obtain ⟨_, _, _, _, further, _⟩ := Tree.ancestors_eq_cons outer
    obtain ⟨_, before, after⟩ :=
      removes.stays found leads (List.IsPrefix.trans ⟨_, further.symm⟩ within)
    exact before.trans after.symm

end Removed

/-- What pruning comes to, whether or not it comes to the root. -/
structure Fells (path : List SlotName) (fresh : CompositeId) (before after : World) : Prop where
  orderly : Orderly after
  root : after.value 0 = before.value 0
  tree : after.tree = (before.tree.left path).tidied fresh (before.tree.survivor? path)

/-- Pruning that succeeds. -/
structure Prunes (path : List SlotName) (before after : World) : Prop where
  quiet : Quiet before after
  stays : ∀ {place}, before.tree.survivor? path = some place →
    after.follow? 0 place = before.follow? 0 place
  top : (before.tree.left path).isOf .ifStatement = false → KeepsTop before after

/-- Pruning goes on with the first ancestor, which is not the root. -/
theorem Removes.onward (removes : Removes path world mid)
    (found : world.tree.ancestors path = above :: around) (leads : world.follow? 0 path = some c)
    (below : above ≠ [])
    (hollow : ((world.tree.replaceAt path []).at? above).any Tree.isHollow = true)
    (prunes : Prunes above mid after) :
    Prunes path world after ∧ (mid.tree.survivor? above).bind (mid.follow? 0) =
      (mid.tree.survivor? above).bind (world.follow? 0) := by
  have stays := Tree.survivor?_of_hollow found hollow
  have leaves := Tree.left_of_hollow found hollow
  rw [← removes.tree] at stays leaves
  have same {place : List SlotName} (survives : mid.tree.survivor? above = some place) :
      mid.follow? 0 place = world.follow? 0 place := by
    obtain ⟨_, before, still⟩ := removes.stays found leads (Tree.prefix_of_survivor? survives)
    exact still.trans before.symm
  refine ⟨⟨removes.quiet.trans prunes.quiet, ?_, ?_⟩, ?_⟩
  · intro place survives
    rw [stays] at survives
    exact (prunes.stays survives).trans (same survives)
  · rw [leaves]
    exact fun plain => removes.keepsTop found below (prunes.top plain)
  · cases survives : mid.tree.survivor? above with
    | none => rfl
    | some place => exact same survives

/-- Pruning ends with the first ancestor, which is mended if it is an `if`. -/
theorem Removes.settle (removes : Removes path world mid)
    (found : world.tree.ancestors path = above :: around)
    (firm : ((world.tree.replaceAt path []).at? above).any Tree.isHollow = false)
    (leadsUp : world.follow? 0 above = some parent) (leads : mid.follow? 0 above = some parent)
    {id : CompositeId} (here : mid.value parent = .composite id) :
    let tidy : Action (Option CursorId) :=
      if (mid.store.tree (mid.value parent)).isOf .ifStatement then do
        Action.mendIf parent
        return some parent
      else return some parent
    ∃ fresh after, Fells path fresh world after ∧
      (world.tree.Stranded path ∧ tidy mid = .error (.error .noParent) after ∨
      ¬world.tree.Stranded path ∧ Prunes path world after ∧ tidy mid = .ok (some parent) after) := by
  obtain ⟨_, _, name, rest, split, _⟩ := Tree.ancestors_eq_cons found
  have nothing := Tree.gone_of_firm found firm
  have stays := Tree.survivor?_of_firm found firm
  have leaves := Tree.left_of_gone nothing
  rw [← removes.tree] at leaves
  have there := removes.orderly.coherent.at?_of_composite leads here
  have unshared : mid.store.Unshared (mid.value parent) :=
    removes.orderly.coherent.unshared_at leads here
  have stranded : world.tree.Stranded path ↔ above = [] ∧
      (mid.store.tree (mid.value parent)).isOf .ifStatement = true ∧
      (mid.store.tree (mid.value parent)).isReducible = true := by
    have low : [] ≠ path := by
      rw [split]
      simp
    rw [Tree.Stranded, nothing, stays, leaves, List.mem_singleton, or_iff_right low,
      Option.some.injEq]
    refine and_congr_right fun root => ?_
    subst root
    rw [Option.some.inj there]
  have still {after : World} (follows : after.follow? 0 above = some parent)
      {place : List SlotName} (survives : world.tree.survivor? path = some place) :
      after.follow? 0 place = world.follow? 0 place := by
    cases stays.symm.trans survives
    exact follows.trans leadsUp.symm
  intro tidy
  cases branch : (mid.store.tree (mid.value parent)).isOf .ifStatement with
  | false =>
    refine ⟨0, mid, ⟨removes.orderly, removes.root, ?_⟩,
      .inr ⟨?_, ⟨removes.quiet, still leads, fun _ => removes.keeps⟩, ?_⟩⟩
    · rw [stays, leaves, Tree.tidied, Option.elim, there, Option.elim, branch]
      rfl
    · rw [stranded, branch]
      exact fun both => Bool.false_ne_true both.2.1
    · simp only [tidy, branch]
      rfl
  | true =>
    have tidied (fresh : CompositeId) : (world.tree.left path).tidied fresh
        (world.tree.survivor? path) =
          Tree.mendIf fresh above (mid.store.tree (mid.value parent)) mid.tree := by
      rw [stays, leaves, Tree.tidied, Option.elim, there, Option.elim, branch, if_pos rfl]
    by_cases caught : above = [] ∧ (mid.store.tree (mid.value parent)).isReducible = true
    · obtain ⟨rfl, reducible⟩ := caught
      cases leads
      obtain ⟨after, result, orderly, root, tree⟩ := removes.orderly.mendIf_refused rfl reducible
      refine ⟨0, after, ⟨orderly, root.trans removes.root, ?_⟩, .inl ⟨?_, ?_⟩⟩
      · rw [tidied, tree, Tree.mendIf]
        rw [Tree.isReducible, Bool.and_eq_true] at reducible
        rw [if_pos reducible.1, if_pos reducible.2]
        rfl
      · exact stranded.mpr ⟨rfl, branch, reducible⟩
      · simp only [tidy, branch, if_true, Action.run_bind, result]
    · have isNode := branch
      rw [Store.isOf_tree unshared, here] at isNode
      obtain ⟨own, typed⟩ := Store.exists_type isNode
      obtain ⟨_, members, equal, present⟩ := Store.exists_members typed
      cases equal
      obtain ⟨after, result, stands, tree⟩ := removes.orderly.mendIf here present leads
        fun reducible root => caught ⟨root, reducible⟩
      have quiet := Action.isQuiet_mendIf parent mid
      rw [result] at quiet
      refine ⟨mid.store.composites.size, after, ⟨stands.orderly, stands.root.trans removes.root, ?_⟩,
        .inr ⟨?_, ⟨removes.quiet.trans quiet, still stands.leads, ?_⟩, ?_⟩⟩
      · rw [tidied, tree]
      · rw [stranded]
        exact fun both => caught ⟨both.1, both.2.2⟩
      · rw [leaves]
        refine fun plain => removes.keepsTop found ?_ (stands.top ?_) <;>
        · rintro rfl
          rw [Option.some.inj there, branch] at plain
          cases plain
      · simp only [tidy, branch, if_true, Action.run_bind, result]
        rfl

/-- Pruning takes away what goes, and gives the cursor of what stays, or it is refused when it comes
to the root. -/
theorem Orderly.prune_ends (orderly : Orderly world) (leads : world.follow? 0 path = some c)
    (recalls : world.Recalls path) (removable : path ≠ [] → world.Removable path c) :
    ∃ fresh after, Fells path fresh world after ∧
      (world.tree.Stranded path ∧ Action.prune c world = .error (.error .noParent) after ∨
      ¬world.tree.Stranded path ∧ Prunes path world after ∧
        Action.prune c world =
          .ok ((world.tree.survivor? path).bind (world.follow? 0)) after) := by
  generalize found : world.tree.ancestors path = around
  induction around generalizing world path c with
  | nil =>
    obtain ⟨change, asked⟩ := orderly.parentNode leads recalls
    have nothing := Tree.gone_of_nil found
    have nobody : world.tree.survivor? path = none := by
      rw [Tree.survivor?, found]
      rfl
    rw [found] at asked
    by_cases top : path = []
    · subst top
      cases leads
      have alike := alike_modifyViews world 0 change
      refine ⟨0, _, ⟨orderly.modifyViews 0 change, alike.value 0, ?_⟩,
        .inl ⟨.inl List.mem_cons_self, ?_⟩⟩
      · rw [Tree.left_of_gone nothing, nobody, World.tree, alike.store, alike.value]
        rfl
      · have orphan : (world.modifyViews 0 change).parent? 0 = none := by
          have absent : ((world.modifyViews 0 change).cursor 0).parent? = none :=
            (alike.above 0).trans orderly.coherent.top
          rw [parent?, absent]
        rw [Action.prune]
        simp only [Action.run_bind, Action.run_ofState, asked, Action.replace_of_none orphan]
    · obtain ⟨cs, mid, removed, removes⟩ := orderly.remove (removable top) change
      refine ⟨0, mid, ⟨removes.orderly, removes.root, ?_⟩, .inr ⟨?_, ⟨removes.quiet, ?_, ?_⟩, ?_⟩⟩
      · rw [Tree.left_of_gone nothing, nobody, removes.tree]
        rfl
      · rintro (among | ⟨same, _⟩)
        · rw [nothing, List.mem_singleton] at among
          exact top among.symm
        · cases nobody.symm.trans same
      · intro place same
        cases nobody.symm.trans same
      · exact fun _ => removes.keeps
      · rw [nobody, Action.prune]
        simp only [Action.run_bind, Action.run_ofState, asked, removed]
        rfl
  | cons above around ih =>
    obtain ⟨isNode, _, name, rest, split, _⟩ := Tree.ancestors_eq_cons found
    have top : path ≠ [] := by
      rw [split]
      simp
    obtain ⟨change, asked⟩ := orderly.parentNode leads recalls
    obtain ⟨cs, mid, removed, removes⟩ := orderly.remove (removable top) change
    obtain ⟨parent, leadsUp, older⟩ : ∃ parent, world.follow? 0 above = some parent ∧ parent < c := by
      rw [split, follow?_append] at leads
      obtain ⟨parent, leadsUp, onward⟩ := Option.bind_eq_some_iff.mp leads
      obtain ⟨next, kept, onward⟩ := Option.bind_eq_some_iff.mp onward
      exact ⟨parent, leadsUp, Nat.lt_of_lt_of_le (orderly.coherent.sound.lt_of_kept kept)
        (orderly.coherent.sound.le_of_follow onward)⟩
    rw [found, List.head?_cons, Option.bind_some, leadsUp] at asked
    obtain ⟨leadsStill, same⟩ := removes.survives split leadsUp
    obtain ⟨parentId, parentHere⟩ : ∃ parentId, mid.value parent = .composite parentId := by
      rw [← orderly.nodeAt_iff leadsUp] at isNode
      obtain ⟨parentId, composite⟩ := Store.composite_of_isOf isNode
      exact ⟨parentId, same.trans composite⟩
    have unshared : mid.store.Unshared (mid.value parent) :=
      removes.orderly.coherent.unshared_at leadsStill parentHere
    have there := removes.orderly.coherent.at?_of_composite leadsStill parentHere
    have verdict : ((world.tree.replaceAt path []).at? above).any Tree.isHollow =
        (mid.store.tree (mid.value parent)).isHollow := by
      rw [← removes.tree, there, Option.any_some]
    rw [Action.prune]
    simp only [Action.run_bind, Action.run_ofState, asked, removed, Action.run_get,
      ← Store.isHollow_tree unshared, ← Store.isOf_tree unshared, if_pos older]
    cases hollow : (mid.store.tree (mid.value parent)).isHollow with
    | true =>
      rw [hollow] at verdict
      obtain ⟨fresh, after, fells, outcome⟩ := ih removes.orderly leadsStill
        (removes.recalls found leads recalls)
        (fun below => removes.orderly.removable leadsStill below parentHere)
        (by rw [removes.tree]; exact Tree.ancestors_removed found)
      have goes := Tree.gone_of_hollow found verdict
      have stays := Tree.survivor?_of_hollow found verdict
      have leaves := Tree.left_of_hollow found verdict
      rw [← removes.tree] at goes stays leaves
      have stranded : world.tree.Stranded path ↔ mid.tree.Stranded above := by
        rw [Tree.Stranded, Tree.Stranded, goes, stays, leaves, List.mem_cons,
          or_iff_right (Ne.symm top)]
      refine ⟨fresh, after, ⟨fells.orderly, fells.root.trans removes.root, ?_⟩, ?_⟩
      · rw [leaves, stays]
        exact fells.tree
      · rw [stranded, stays]
        refine outcome.imp_right fun onward => ?_
        obtain ⟨free, prunes, result⟩ := onward
        have below : above ≠ [] := fun root => free (.inl (root ▸ List.mem_cons_self))
        obtain ⟨prunesAll, answer⟩ := removes.onward found leads below verdict prunes
        exact ⟨free, prunesAll, answer ▸ result⟩
    | false =>
      rw [hollow] at verdict
      rw [Tree.survivor?_of_firm found verdict, Option.bind_some, leadsUp]
      exact removes.settle found verdict leadsUp leadsStill parentHere

/-- In a world in good order where no cursor remembers anything of its surroundings, the cursor of
a composite below a steady root is pruned, and the tree afterwards is the pruned tree. -/
theorem Orderly.prune (orderly : Orderly world) (viewless : Viewless world)
    (steady : world.tree.Steady) {id : CompositeId} (leads : world.follow? 0 path = some c)
    (below : path ≠ []) (here : world.value c = .composite id) :
    ∃ remaining fresh after, Action.prune c world = .ok remaining after ∧ Orderly after ∧
      Viewless after ∧ KeepsTop world after ∧ after.value 0 = world.value 0 ∧
      after.tree = world.tree.prune fresh path := by
  obtain ⟨fresh, after, fells, outcome⟩ := orderly.prune_ends leads viewless.recalls
    fun _ => orderly.removable leads below here
  obtain ⟨free, left⟩ := steady.left below (orderly.coherent.at?_of_composite leads here) (by
    rw [Store.text?_tree, here]
    rfl)
  rcases outcome with ⟨among | ⟨_, branch, _⟩, _⟩ | ⟨_, prunes, result⟩
  · exact absurd among free
  · rw [left.branch] at branch
    cases branch
  · exact ⟨_, fresh, after, result, fells.orderly, prunes.quiet.viewless viewless,
      prunes.top left.branch, fells.root, fells.tree.trans (Tree.prune_eq _ _ _).symm⟩

end World

end CodeTree
