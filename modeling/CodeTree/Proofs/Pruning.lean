/-
Pruning, told of trees. What encloses the end of a path stands at the fronts of the path, and so
the parent node of a slot can be found in the tree alone. Pruning removes the slot; if that leaves
the parent node hollow, it is pruned in turn, and if it is an `if`, it is mended.
-/

import CodeTree.Proofs.Mending
import Mathlib.Data.List.Forall2

namespace CodeTree

variable {slot : SlotName} {front rest : List SlotName} {tree : Tree}

variable {new old other : Tree} {path : List SlotName} {trees : List Tree} {name : SlotName}

namespace Tree

/-! ### Types after a change -/

theorem value_exchangeSlot (slot : SlotName) (trees : List Tree) (tree : Tree) :
    (tree.exchangeSlot slot trees).value = tree.value := by
  cases tree <;> cases slot <;> cases trees <;> rfl

theorem value_graft (tree : Tree) (name : SlotName) (rest : List SlotName) (new : Tree) :
    (tree.graft (name :: rest) new).value = tree.value := by
  cases tree <;> cases name <;> rfl

/-- What stands in a slot after a graft further down. -/
theorem inner?_graft (tree : Tree) (name : SlotName) (rest : List SlotName) (new : Tree)
    (other : SlotName) :
    (tree.graft (name :: rest) new).inner? other =
      if other = name then (tree.inner? name).map (·.graft rest new) else tree.inner? other := by
  cases tree with
  | leaf value => cases name <;> cases other <;> simp [graft, inner?]
  | array id items =>
    cases name with
    | key characters => cases other <;> simp [graft, inner?]
    | index position =>
      cases other with
      | key characters => simp [graft, inner?]
      | index place =>
        rw [graft, inner?, List.getElem?_modify]
        by_cases same : position = place
        · subst same
          simp [inner?]
        · have apart : SlotName.index place ≠ .index position :=
            fun equal => same (SlotName.index.inj equal).symm
          rw [if_neg apart]
          simp [same, inner?]
  | object id members =>
    cases name with
    | index position => cases other <;> simp [graft, inner?]
    | key characters =>
      cases other with
      | index place => simp [graft, inner?]
      | key key =>
        simp only [graft, inner?, SlotName.key.injEq]
        induction members with
        | nil => simp [Entries.lookup]
        | cons member rest ih =>
          rw [List.map_cons]
          by_cases found : member.1 = characters <;> by_cases same : key = characters <;>
            by_cases first : key = member.1 <;> simp_all [Entries.lookup]

/-- A subtree exchanged for one with the same value at its top leaves the values of all members
above it. -/
theorem value_member_graft (there : tree.at? (name :: rest) = some old)
    (same : new.value = old.value) (key : String) :
    ((tree.graft (name :: rest) new).member key).value = (tree.member key).value := by
  rw [member, member, inner?_graft]
  split
  · rename_i named
    obtain ⟨next, entry, onward⟩ := Option.bind_eq_some_iff.mp there
    rw [named, entry, Option.map_some, Option.getD_some, Option.getD_some]
    cases rest with
    | nil =>
      cases onward
      exact same
    | cons step beyond => exact value_graft next step beyond new
  · rfl

theorem type?_of_value (same : (tree.member "type").value = (other.member "type").value) :
    tree.type? = other.type? := by
  rw [type?, type?, text?, text?, same]

theorem type?_graft (there : tree.at? (name :: rest) = some old) (same : new.value = old.value) :
    (tree.graft (name :: rest) new).type? = tree.type? :=
  type?_of_value (value_member_graft there same "type")

/-- An exchange of what is no text leaves the type. -/
theorem type?_exchangeSlot (there : tree.inner? slot = some old) (wordless : old.text? = none)
    (speechless : ∀ new ∈ trees, new.text? = none) :
    (tree.exchangeSlot slot trees).type? = tree.type? := by
  cases tree with
  | leaf value => cases there
  | array id items => cases slot <;> cases trees <;> rfl
  | object id members =>
    cases slot with
    | index position => cases there
    | key characters =>
      have there : Entries.lookup characters members = some old := there
      by_cases same : "type" = characters
      · -- Neither what stood there nor what comes is the name of a type.
        subst same
        have before : (object id members).type? = none := by
          simp [type?, member, inner?, there, wordless]
        rw [before]
        cases trees with
        | nil => simp [type?, member, inner?, exchangeSlot, Entries.lookup_drop, text?, value,
            Value.text?]
        | cons new others =>
          simp [type?, member, inner?, exchangeSlot, Entries.lookup_put,
            speechless new List.mem_cons_self]
      · cases trees with
        | nil => simp [type?, member, inner?, exchangeSlot, Entries.lookup_drop, same]
        | cons new others => simp [type?, member, inner?, exchangeSlot, Entries.lookup_put, same]

theorem at?_append (tree : Tree) (path rest : List SlotName) :
    tree.at? (path ++ rest) = (tree.at? path).bind (·.at? rest) := by
  induction path generalizing tree with
  | nil => rfl
  | cons name path ih =>
    simp only [List.cons_append, at?, Option.bind_assoc, ih]

theorem at?_concat {part : Tree} :
    tree.at? (front ++ [slot]) = some part ↔
      ∃ holder, tree.at? front = some holder ∧ holder.inner? slot = some part := by
  rw [at?_append, Option.bind_eq_some_iff]
  simp only [at?, Option.bind_fun_some]

theorem type?_exchange (there : tree.at? (front ++ [slot]) = some old) (wordless : old.text? = none)
    (speechless : ∀ new ∈ trees, new.text? = none) :
    (tree.exchange front slot trees).type? = tree.type? := by
  obtain ⟨holder, reached, entry⟩ := at?_concat.mp there
  rw [exchange, reached, Option.elim]
  cases front with
  | nil =>
    cases reached
    exact type?_exchangeSlot entry wordless speechless
  | cons name rest => exact type?_graft reached (value_exchangeSlot slot trees holder)

/-! ### What encloses a slot -/

/-- The paths to what encloses the end of a path, from the inside out. -/
def fronts (path : List SlotName) : List (List SlotName) :=
  (List.range path.length).reverse.map path.take

theorem fronts_concat (front : List SlotName) (slot : SlotName) :
    fronts (front ++ [slot]) = front :: fronts front := by
  rw [fronts, List.length_append, List.length_singleton, List.range_succ, List.reverse_append,
    List.reverse_singleton, List.singleton_append, List.map_cons, List.take_left, fronts]
  congr 1
  refine List.map_congr_left fun steps inside => ?_
  rw [List.mem_reverse, List.mem_range] at inside
  rw [List.take_append_of_le_length (Nat.le_of_lt inside)]

theorem mem_fronts (member : front ∈ fronts path) : ∃ name rest, path = front ++ name :: rest := by
  obtain ⟨steps, inside, rfl⟩ := List.mem_map.mp member
  rw [List.mem_reverse, List.mem_range] at inside
  refine ⟨path[steps], path.drop (steps + 1), ?_⟩
  rw [← List.drop_eq_getElem_cons, List.take_append_drop]

/-- Whether a node stands at the end of a path. -/
def nodeAt (tree : Tree) (path : List SlotName) : Bool := (tree.at? path).any isNode

/-- The path to the parent node of a slot. For a slot that holds no node, the nearest node around
it is the slot's own, and the one around that is meant. -/
def parentNode? (tree : Tree) (path : List SlotName) : Option (List SlotName) :=
  let start :=
    if tree.nodeAt path then fronts path
    else ((fronts path).dropWhile fun front => !tree.nodeAt front).tail
  start.find? tree.nodeAt

theorem parentNode?_eq_some {above : List SlotName} (found : tree.parentNode? path = some above) :
    (∃ name rest, path = above ++ name :: rest) ∧ tree.nodeAt above = true := by
  refine ⟨mem_fronts ?_, List.find?_some found⟩
  have member := List.mem_of_find?_eq_some found
  split at member
  · exact member
  · exact (List.dropWhile_suffix _).subset (List.mem_of_mem_tail member)

/-! ### Pruned trees -/

/-- Whether a node has lost what gave it a meaning. -/
def isHollow (node : Tree) : Bool :=
  if node.isOf .variableDeclaration then (node.member "declarations").items.isEmpty
  else node.isOf .expressionStatement && (node.member "expression").isNull

/-- The tree after what stands at the end of a path has been pruned. -/
def prune (fresh : CompositeId) (tree : Tree) (path : List SlotName) : Tree :=
  match tree.parentNode? path with
  | none => tree.replaceAt path []
  | some above =>
    match (tree.replaceAt path []).at? above with
    | none => tree.replaceAt path []
    | some node =>
      if node.isHollow then
        if above.length < path.length then (tree.replaceAt path []).prune fresh above
        else tree.replaceAt path []
      else if node.isOf .ifStatement then
        Tree.mendIf fresh above node (tree.replaceAt path [])
      else tree.replaceAt path []
termination_by path.length

/-- A root that pruning does not try to remove or to mend. -/
structure Steady (tree : Tree) : Prop where
  declaration : tree.isOf .variableDeclaration = false
  expression : tree.isOf .expressionStatement = false
  branch : tree.isOf .ifStatement = false

theorem Steady.of_type? (steady : tree.Steady) (same : other.type? = tree.type?) :
    other.Steady := by
  constructor
  · rw [isOf, same]
    exact steady.declaration
  · rw [isOf, same]
    exact steady.expression
  · rw [isOf, same]
    exact steady.branch

theorem Steady.not_isHollow (steady : tree.Steady) : tree.isHollow = false := by
  simp [isHollow, steady.declaration, steady.expression]

end Tree

theorem Store.isHollow_tree {store : Store} {value : Value} (unshared : store.Unshared value) :
    (store.tree value).isHollow = Action.isHollow store value := by
  have simple : store.Unshared (store.member value "declarations") :=
    Unshared.member (rfl : store.part? value [] = some value) _ unshared
  rw [Tree.isHollow, Action.isHollow, isOf_tree unshared, isOf_tree unshared, member_tree unshared,
    member_tree unshared, isNull_tree, items_tree simple, List.isEmpty_map]

/-! ### Climbing in a world -/

section Related

variable {α β : Type} {related : α → β → Prop} {test : α → Bool} {other : β → Bool}
  (agree : ∀ a b, related a b → test a = other b)

include agree

theorem rel_find? {first : List α} {second : List β} (all : List.Forall₂ related first second) :
    Option.Rel related (first.find? test) (second.find? other) := by
  induction all with
  | nil => exact .none
  | cons head _ ih =>
    rw [List.find?_cons, List.find?_cons, agree _ _ head]
    split
    · exact .some head
    · exact ih

theorem forall₂_dropWhile {first : List α} {second : List β}
    (all : List.Forall₂ related first second) :
    List.Forall₂ related (first.dropWhile fun a => !test a) (second.dropWhile fun b => !other b) := by
  induction all with
  | nil => exact .nil
  | cons head rest ih =>
    rw [List.dropWhile_cons, List.dropWhile_cons, agree _ _ head]
    split
    · exact ih
    · exact .cons head rest

omit agree in
theorem forall₂_tail {first : List α} {second : List β}
    (all : List.Forall₂ related first second) : List.Forall₂ related first.tail second.tail := by
  cases all with
  | nil => exact .nil
  | cons _ rest => exact rest

end Related

namespace World

section Views

variable (world : World) (c : CursorId) (change : Views → Views)

theorem alike_modifyViews : Alike world (world.modifyViews c change) :=
  alike_modifyCursor world c _ fun _ => ⟨rfl, rfl, rfl⟩

theorem kept?_modifyViews (d : CursorId) (name : SlotName) :
    (world.modifyViews c change).kept? d name = world.kept? d name :=
  field_modifyCursor (fun cursor => cursor.children.get? name) world c d fun _ => rfl

/-- Forgetting the views of a cursor undoes what was done to them. -/
theorem withoutViews_modifyViews :
    (world.modifyViews c change).withoutViews c = world.withoutViews c := by
  refine congrArg (fun cursors => { world with cursors }) (Array.ext_getElem? fun d => ?_)
  simp only [modifyViews, modifyCursor, Array.getElem?_modify]
  by_cases same : c = d
  · subst same
    cases world.cursors[c]? <;> simp
  · simp [same]

end Views

namespace Orderly

variable {world : World} (orderly : Orderly world)

include orderly

theorem modifyViews (c : CursorId) (change : Views → Views) :
    Orderly (world.modifyViews c change) := by
  have alike := alike_modifyViews world c change
  have kept := kept?_modifyViews world c change
  have sound : Sound (world.modifyViews c change) :=
    orderly.coherent.sound.modifyViews c (change ·.views)
  refine ⟨orderly.coherent.of_alike alike sound kept, ?_, ?_, ?_⟩
  · obtain ⟨handle, member, holds⟩ := List.any_eq_true.mp orderly.held
    refine List.any_eq_true.mpr ⟨handle, member, ?_⟩
    have same : ((world.modifyViews c change).cursor handle).root = (world.cursor handle).root :=
      alike.origin handle
    rw [same]
    exact holds
  · exact orderly.fits
  · rw [alike.value]
    exact orderly.whole

variable {c : CursorId} (leads : world.follow? 0 path = some c)

include leads

/-- The cursors above a cursor stand at the fronts of its path. -/
theorem chain_fronts : List.Forall₂ (fun d front => world.follow? 0 front = some d)
    (world.chain c).tail (Tree.fronts path) := by
  have sound := orderly.coherent.sound
  refine follow?_induction (motive := fun path c => List.Forall₂
    (fun d front => world.follow? 0 front = some d) (world.chain c).tail (Tree.fronts path))
    ?_ ?_ leads
  · have orphan : world.parent? 0 = none := by
      have absent : (world.cursor 0).parent? = none := orderly.coherent.top
      rw [parent?, absent]
    rw [sound.chain_eq, orphan]
    exact .nil
  · intro path parent name c toParent kept related
    have living := parent?_of_above? (sound.kept kept).1 (orderly.alive toParent)
    rw [sound.chain_eq, living, Tree.fronts_concat, List.tail_cons, Option.elim, sound.chain_eq]
    rw [sound.chain_eq, List.tail_cons] at related
    exact .cons toParent related

theorem nodeAt_iff : world.isNodeAt c = world.tree.nodeAt path :=
  (orderly.coherent.isOf_at leads .node).symm

/-- The parent node of a cursor is found in the tree. -/
theorem freshParent? : Option.Rel (fun d front => world.follow? 0 front = some d)
    (world.freshParent? c) (world.tree.parentNode? path) := by
  have agree (d : CursorId) (front : List SlotName) (leads : world.follow? 0 front = some d) :
      world.isNodeAt d = world.tree.nodeAt front := orderly.nodeAt_iff leads
  have climbed := orderly.chain_fronts leads
  have start : List.Forall₂ (fun d front => world.follow? 0 front = some d)
      (if world.isNodeAt c then (world.chain c).tail
        else ((world.chain c).tail.dropWhile fun d => !world.isNodeAt d).tail)
      (if world.tree.nodeAt path then Tree.fronts path
        else ((Tree.fronts path).dropWhile fun front => !world.tree.nodeAt front).tail) := by
    rw [agree c path leads]
    split
    · exact climbed
    · exact forall₂_tail (forall₂_dropWhile agree climbed)
  exact rel_find? agree start

end Orderly

end World

end CodeTree
