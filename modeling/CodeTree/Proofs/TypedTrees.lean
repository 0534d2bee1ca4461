/-
Types of trees. The type of a value is read off the text under one of its keys, and whatever is
asked about types can be asked of the tree that the value shows. Since only an object has a type,
only a cursor at a composite can stand at a node, and such a cursor stands where its path leads
to in the tree.
-/

import CodeTree.Node.Views
import CodeTree.Proofs.Lineages
import CodeTree.Proofs.Wholeness

namespace CodeTree

variable {type : NodeType} {tree : Tree}

namespace Tree

/-! ### Reading trees -/

/-- The subtree under a key. What is missing reads as null. -/
def member (tree : Tree) (key : String) : Tree := (tree.inner? (.key key)).getD (.leaf .null)

def isNull (tree : Tree) : Bool := tree.value.isNull

def text? (tree : Tree) : Option String := tree.value.text?

/-- The type of a typed tree. -/
def type? (tree : Tree) : Option NodeType := (tree.member "type").text?.bind NodeType.ofName?

/-- Whether a tree is of a type or of one that derives from it. -/
def isOf (type : NodeType) (tree : Tree) : Bool := tree.type?.any (fun own => own.isSubtypeOf type)

def isNode (tree : Tree) : Bool := tree.isOf .node

/-- Only an object has a type. -/
theorem exists_object (typed : tree.type? ≠ none) : ∃ id members, tree = .object id members := by
  cases tree with
  | object id members => exact ⟨id, members, rfl⟩
  | _ => exact absurd rfl typed

theorem exists_object_of_type (typed : tree.type? = some type) :
    ∃ id members, tree = .object id members :=
  exists_object (by rw [typed]; exact Option.some_ne_none _)

theorem type?_ne_none (isType : tree.isOf type = true) : tree.type? ≠ none := by
  intro untyped
  rw [isOf, untyped] at isType
  cases isType

/-- A tree is of a type that can be written down exactly if that is its own type. -/
theorem isOf_iff (concrete : type.isAbstract = false) :
    tree.isOf type = true ↔ tree.type? = some type :=
  NodeType.any_isSubtypeOf_iff concrete

theorem isOf_eq_false {own : NodeType} (concrete : type.isAbstract = false)
    (typed : tree.type? = some own) (different : own ≠ type) : tree.isOf type = false := by
  refine Bool.eq_false_iff.mpr fun isType => different ?_
  rw [isOf_iff concrete, typed] at isType
  exact Option.some.inj isType

theorem eq_leaf_of_isNull (null : tree.isNull = true) : tree = .leaf .null := by
  cases tree with
  | leaf value =>
    cases value with
    | null => rfl
    | _ => cases null
  | _ => cases null

end Tree

namespace Store

/-! ### The types of values -/

variable {store : Store} {value : Value}

theorem member_eq_inner? (store : Store) (value : Value) (key : String) :
    store.member value key = (store.inner? value (.key key)).getD .null := by
  unfold member members? inner?
  cases store.contents? value with
  | none => rfl
  | some contents => cases contents <;> rfl

theorem value_tree (store : Store) (value : Value) : (store.tree value).value = value :=
  store.value_treeTo _ value

theorem isNull_tree (store : Store) (value : Value) : (store.tree value).isNull = value.isNull := by
  rw [Tree.isNull, value_tree]

theorem text?_tree (store : Store) (value : Value) : (store.tree value).text? = value.text? := by
  rw [Tree.text?, value_tree]

section Unshared

variable (unshared : store.Unshared value)

include unshared

theorem member_tree (key : String) :
    (store.tree value).member key = store.tree (store.member value key) := by
  rw [Tree.member, inner?_tree unshared, member_eq_inner?]
  cases store.inner? value (.key key) <;> rfl

theorem type?_tree : (store.tree value).type? = store.type? value := by
  rw [Tree.type?, member_tree unshared, text?_tree]
  rfl

theorem isOf_tree (type : NodeType) : (store.tree value).isOf type = store.isOf type value := by
  rw [Tree.isOf, type?_tree unshared]
  rfl

theorem items_tree : (store.tree value).items = ((store.items? value).getD []).map store.tree := by
  cases present : store.contents? value with
  | none =>
    rw [tree_of_none present, items?, present]
    rfl
  | some contents =>
    obtain ⟨id, rfl⟩ := exists_id_of_contents? present
    rw [tree_of_some unshared present, items?, present]
    cases contents <;> rfl

end Unshared

/-- A value of a type is an object. -/
theorem exists_members (typed : store.type? value = some type) :
    ∃ id members, value = .composite id ∧
      store.contents? (.composite id) = some (.object members) := by
  rw [type?, typeName?, member, members?] at typed
  cases present : store.contents? value with
  | none =>
    rw [present] at typed
    cases typed
  | some contents =>
    obtain ⟨id, rfl⟩ := exists_id_of_contents? present
    cases contents with
    | array items =>
      rw [present] at typed
      cases typed
    | object members => exact ⟨id, members, rfl, present⟩

theorem exists_type (isType : store.isOf type value = true) :
    ∃ own, store.type? value = some own := by
  cases typed : store.type? value with
  | none =>
    rw [isOf, typed] at isType
    cases isType
  | some own => exact ⟨own, rfl⟩

theorem composite_of_isOf (isType : store.isOf type value = true) :
    ∃ id, value = .composite id := by
  obtain ⟨own, typed⟩ := exists_type isType
  obtain ⟨id, _, composite, _⟩ := exists_members typed
  exact ⟨id, composite⟩

end Store

namespace World

/-! ### Cursors at typed values -/

variable {world : World} (coherent : Coherent 0 world) {path : List SlotName} {c : CursorId}
  (leads : world.follow? 0 path = some c)

include coherent leads

/-- The subtree at a cursor of a composite. -/
theorem Coherent.at?_of_composite {id : CompositeId} (here : world.value c = .composite id) :
    world.tree.at? path = some (world.store.tree (world.value c)) := by
  rw [tree, Store.at?_tree coherent.unshared, coherent.part_of_follow leads here, here,
    Option.map_some]

theorem Coherent.unshared_at {id : CompositeId} (here : world.value c = .composite id) :
    world.store.Unshared (world.value c) := by
  rw [here]
  exact Store.Unshared.part coherent.unshared (coherent.part_of_follow leads here)

/-- A cursor stands at a value of a type where its path leads to a tree of that type. -/
theorem Coherent.isOf_at (type : NodeType) :
    (world.tree.at? path).any (Tree.isOf type) = world.store.isOf type (world.value c) := by
  by_cases composite : ∃ id, world.value c = .composite id
  · obtain ⟨id, here⟩ := composite
    rw [coherent.at?_of_composite leads here, Option.any_some,
      Store.isOf_tree (coherent.unshared_at leads here)]
  · have plain : ∀ id, world.value c ≠ .composite id := fun id here => composite ⟨id, here⟩
    have untyped : world.store.isOf type (world.value c) = false := by
      refine Bool.eq_false_iff.mpr fun isType => ?_
      obtain ⟨own, typed⟩ := Store.exists_type isType
      obtain ⟨id, _, here, _⟩ := Store.exists_members typed
      exact plain id here
    rw [untyped, tree, Store.at?_tree coherent.unshared]
    cases there : world.store.part? (world.value 0) path with
    | none => rfl
    | some part =>
      refine Bool.eq_false_iff.mpr fun isType => ?_
      obtain ⟨id, members, object⟩ := Tree.exists_object (Tree.type?_ne_none isType)
      have same := coherent.same_of_part leads there
      have composite := world.store.value_tree part
      rw [object] at composite
      rw [← composite] at same
      exact plain id (Value.same_composite_left.mp same)

end World

end CodeTree
