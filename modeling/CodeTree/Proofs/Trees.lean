/-
The tree that a value shows. Followed through the store, a value unfolds into a tree whose inner
nodes remember which composite they stand for. Values are followed to a bounded depth, which an
unshared value never reaches: on the way down no composite comes twice, and a store has only so
many of them. So the tree of an unshared value has the trees of its parts for subtrees, and after
a write to one composite it is the old tree with one subtree exchanged.
-/

import CodeTree.Proofs.Parts
import Mathlib.Data.Fin.Pigeonhole

namespace CodeTree

/-- A tree of values, each composite with its identity. -/
inductive Tree where
  | leaf (value : Value)
  | array (id : CompositeId) (items : List Tree)
  | object (id : CompositeId) (members : List (String × Tree))

namespace Tree

/-- The value at the top of a tree. -/
def value : Tree → Value
  | leaf value => value
  | array id _ | object id _ => .composite id

/-- The elements of a tree at whose top there is an array. -/
def items : Tree → List Tree
  | array _ items => items
  | _ => []

/-- The subtree in a slot. -/
def inner? : Tree → SlotName → Option Tree
  | array _ items, .index position => items[position]?
  | object _ members, .key characters => Entries.lookup characters members
  | _, _ => none

/-- The subtree at the end of a path. -/
def at? (tree : Tree) : List SlotName → Option Tree
  | [] => some tree
  | name :: rest => (tree.inner? name).bind (·.at? rest)

/-- Exchanges the subtree at the end of a path. -/
def graft : Tree → List SlotName → Tree → Tree
  | _, [], new => new
  | array id items, .index position :: rest, new =>
    array id (items.modify position (·.graft rest new))
  | object id members, .key characters :: rest, new =>
    object id (members.map fun member =>
      if member.1 = characters then (member.1, member.2.graft rest new) else member)
  | tree, _ :: _, _ => tree

end Tree

/-- Looking up among the images of some values. -/
theorem Entries.lookup_map {κ α β : Type} [DecidableEq κ] (image : α → β) (key : κ)
    (entries : List (κ × α)) :
    lookup key (entries.map fun entry => (entry.1, image entry.2)) =
      (lookup key entries).map image := by
  induction entries with
  | nil => rfl
  | cons head rest ih =>
    by_cases equal : key = head.1
    · simp [lookup, equal]
    · simp [lookup, equal, ih]

/-- The tree of a composite, given the trees of its slots. -/
def Composite.tree (id : CompositeId) (plant : Value → Tree) : Composite → Tree
  | array items => .array id (items.map plant)
  | object members => .object id (members.entries.map fun member => (member.1, plant member.2))

namespace Store

variable {store other : Store} {value : Value} {contents : Composite} {id : CompositeId}
  {path : List SlotName}

/-- The tree of a value, followed to a depth. -/
def treeTo (store : Store) : Nat → Value → Tree
  | depth + 1, .composite id =>
    match store.contents? (.composite id) with
    | some contents => contents.tree id (treeTo store depth)
    | none => .leaf (.composite id)
  | _, value => .leaf value

/-- The tree of a value. -/
def tree (store : Store) (value : Value) : Tree := store.treeTo store.depthBound value

/-! ### Depth -/

/-- The composites of a value all lie above a depth. -/
def Within (store : Store) (value : Value) (depth : Nat) : Prop :=
  ∀ {path part contents}, store.part? value path = some part →
    store.contents? part = some contents → path.length < depth

theorem Within.next {part : Value} {depth : Nat} {name : SlotName}
    (within : store.Within value (depth + 1)) (entry : store.inner? value name = some part) :
    store.Within part depth := by
  intro path _ _ there present
  rw [← part?_cons entry] at there
  exact Nat.lt_of_succ_lt_succ (within there present)

/-- What has contents reaches below its top. -/
theorem Within.exists_less {depth : Nat} (within : store.Within value depth)
    (present : store.contents? value = some contents) : ∃ less, depth = less + 1 :=
  Nat.exists_eq_add_one.mpr (@within [] value _ rfl present)

theorem Within.plain (within : store.Within value 0) : store.contents? value = none :=
  Option.eq_none_iff_forall_ne_some.mpr fun _ present =>
    Nat.not_lt_zero _ (@within [] value _ rfl present)

theorem Spares.within {depth : Nat} (spares : store.Spares other value)
    (within : store.Within value depth) : other.Within value depth := by
  intro path part contents there present
  rw [spares.part?] at there
  exact within there ((spares there).symm.trans present)

theorem Unshared.part {store : Store} {value part : Value} {path : List SlotName}
    (unshared : store.Unshared value) (there : store.part? value path = some part) :
    store.Unshared part := by
  have onward (rest : List SlotName) :
      store.part? value (path ++ rest) = store.part? part rest := by
    rw [part?_append, there, Option.bind_some]
  intro first second id one other
  rw [← onward] at one other
  exact List.append_cancel_left (unshared one other)

theorem Unshared.next {part : Value} {name : SlotName} (unshared : store.Unshared value)
    (entry : store.inner? value name = some part) : store.Unshared part :=
  unshared.part ((part?_cons entry []).trans rfl)

/-- On the way to a part there stand composites, and the store has all of them. -/
theorem exists_id_of_part? {part : Value} (there : store.part? value path = some part)
    (present : store.contents? part = some contents) (steps : Nat) :
    ∃ id : Fin store.composites.size,
      store.part? value (path.take steps) = some (.composite id) := by
  obtain ⟨holder, reached, filled⟩ : ∃ holder, store.part? value (path.take steps) = some holder ∧
      ∃ inside, store.contents? holder = some inside := by
    have split := store.part?_append value (path.take steps) (path.drop steps)
    rw [List.take_append_drop, there] at split
    obtain ⟨holder, reached, onward⟩ := Option.bind_eq_some_iff.mp split.symm
    refine ⟨holder, reached, ?_⟩
    cases rest : path.drop steps with
    | nil =>
      rw [rest] at onward
      cases onward
      exact ⟨contents, present⟩
    | cons name rest =>
      rw [rest] at onward
      refine Option.ne_none_iff_exists'.mp fun plain => ?_
      cases (part?_of_plain plain onward).1
  obtain ⟨inside, filled⟩ := filled
  obtain ⟨id, rfl⟩ := exists_id_of_contents? filled
  exact ⟨⟨id, (Array.getElem?_eq_some_iff.mp filled).1⟩, reached⟩

/-- No composite of a value stands inside itself. -/
def Acyclic (store : Store) (value : Value) : Prop :=
  ∀ {path rest id}, store.part? value path = some (.composite id) →
    store.part? value (path ++ rest) = some (.composite id) → rest = []

/-- A value without cycles does not reach the depth to which values are followed. -/
theorem Acyclic.within {store : Store} {value : Value} (acyclic : store.Acyclic value) :
    store.Within value store.depthBound := by
  intro path part contents there present
  have stands (steps : Fin (path.length + 1)) := exists_id_of_part? there present steps
  choose place placed using stands
  have ordered {first second : Fin (path.length + 1)} (equal : place first = place second)
      (before : first ≤ second) : first = second := by
    have further : path.take second = path.take first ++ (path.drop first).take (second - first) := by
      rw [← List.take_add, Nat.add_sub_cancel' before]
    have nothing := acyclic (placed first) (further ▸ equal ▸ placed second)
    have length := congrArg List.length nothing
    rw [List.length_take, List.length_drop, List.length_nil] at length
    have late := second.isLt
    apply Fin.ext
    omega
  -- One composite for each step down, and no composite twice.
  have distinct : Function.Injective place := fun first second equal =>
    (Nat.le_total first second).elim (ordered equal) fun after => (ordered equal.symm after).symm
  have bounded := Fin.le_of_injective place distinct
  rw [depthBound]
  omega

theorem Unshared.acyclic {store : Store} {value : Value} (unshared : store.Unshared value) :
    store.Acyclic value := fun first second =>
  List.self_eq_append_right.mp (unshared first second)

/-- An unshared value does not reach the depth to which values are followed. -/
theorem Unshared.within {store : Store} {value : Value} (unshared : store.Unshared value) :
    store.Within value store.depthBound :=
  Acyclic.within unshared.acyclic

/-! ### Unfolding -/

theorem treeTo_of_none (plain : store.contents? value = none) (depth : Nat) :
    store.treeTo depth value = .leaf value := by
  cases depth with
  | zero => cases value <;> rfl
  | succ depth =>
    cases value with
    | composite id => rw [treeTo, plain]
    | _ => rfl

theorem treeTo_of_some (present : store.contents? (.composite id) = some contents) (depth : Nat) :
    store.treeTo (depth + 1) (.composite id) = contents.tree id (store.treeTo depth) := by
  rw [treeTo, present]

theorem value_treeTo (store : Store) (depth : Nat) (value : Value) :
    (store.treeTo depth value).value = value := by
  cases present : store.contents? value with
  | none =>
    rw [treeTo_of_none present]
    rfl
  | some contents =>
    obtain ⟨id, rfl⟩ := exists_id_of_contents? present
    cases depth with
    | zero => rfl
    | succ depth =>
      rw [treeTo_of_some present]
      cases contents <;> rfl

/-- The tree of a composite depends on the trees of what stands in its slots alone. -/
theorem tree_contents_congr {store : Store} {id : CompositeId} {contents : Composite}
    (present : store.contents? (.composite id) = some contents) {plant other : Value → Tree}
    (same : ∀ {name part}, store.inner? (.composite id) name = some part →
      plant part = other part) : contents.tree id plant = contents.tree id other := by
  cases contents with
  | array items =>
    refine congrArg (Tree.array id) (List.map_congr_left fun item member => ?_)
    obtain ⟨_, entry⟩ := exists_name_of_mem present member
    exact same entry
  | object members =>
    refine congrArg (Tree.object id) (List.map_congr_left fun member inside => ?_)
    rw [same (inner?_of_mem present inside)]

/-- Stores that agree on the parts of a value show the same tree, at any depths that the value
does not reach. -/
theorem Spares.treeTo {depth otherDepth : Nat} (spares : store.Spares other value)
    (within : store.Within value depth) (withinOther : store.Within value otherDepth) :
    other.treeTo otherDepth value = store.treeTo depth value := by
  induction depth generalizing value otherDepth with
  | zero =>
    have plain := within.plain
    rw [treeTo_of_none plain, treeTo_of_none ((@spares [] value rfl).trans plain)]
  | succ depth ih =>
    have here : other.contents? value = store.contents? value := @spares [] value rfl
    cases present : store.contents? value with
    | none => rw [treeTo_of_none present, treeTo_of_none (here.trans present)]
    | some contents =>
      obtain ⟨id, rfl⟩ := exists_id_of_contents? present
      obtain ⟨otherDepth, rfl⟩ := withinOther.exists_less present
      rw [treeTo_of_some present, treeTo_of_some (here.trans present)]
      exact tree_contents_congr present fun entry =>
        ih (spares.next entry) (within.next entry) (withinOther.next entry)

/-- Stores that agree on the parts of an unshared value show the same tree. -/
theorem Spares.tree {store other : Store} {value : Value} (spares : store.Spares other value)
    (unshared : store.Unshared value) : other.tree value = store.tree value := by
  have still : other.Unshared value := spares.unshared unshared
  exact spares.treeTo unshared.within (Spares.within spares.symm still.within)

theorem tree_of_none (plain : store.contents? value = none) : store.tree value = .leaf value :=
  treeTo_of_none plain _

/-- The tree of an unshared composite has the trees of its slots for subtrees. -/
theorem tree_of_some (unshared : store.Unshared (.composite id))
    (present : store.contents? (.composite id) = some contents) :
    store.tree (.composite id) = contents.tree id store.tree := by
  rw [tree, depthBound, treeTo_of_some present]
  refine tree_contents_congr present fun entry => ?_
  have inside : store.Unshared _ := unshared.next entry
  have within : store.Within (.composite id) (store.composites.size + 1) := unshared.within
  exact Spares.treeTo (fun _ => rfl) inside.within (within.next entry)

/-! ### Places in a tree -/

theorem inner?_tree (unshared : store.Unshared value) (name : SlotName) :
    (store.tree value).inner? name = (store.inner? value name).map store.tree := by
  cases present : store.contents? value with
  | none =>
    rw [tree_of_none present]
    simp [Tree.inner?, inner?, present]
  | some contents =>
    obtain ⟨id, rfl⟩ := exists_id_of_contents? present
    rw [tree_of_some unshared present]
    cases contents with
    | array items =>
      cases name with
      | index position => rw [inner?_array present, Composite.tree, Tree.inner?, List.getElem?_map]
      | key characters => simp [Composite.tree, Tree.inner?, inner?, present]
    | object members =>
      cases name with
      | index position => simp [Composite.tree, Tree.inner?, inner?, present]
      | key characters =>
        rw [inner?_object present, Composite.tree, Tree.inner?, Assoc.get?]
        exact Entries.lookup_map store.tree characters members.entries

/-- The subtrees of an unshared value are the trees of its parts. -/
theorem at?_tree (unshared : store.Unshared value) (path : List SlotName) :
    (store.tree value).at? path = (store.part? value path).map store.tree := by
  induction path generalizing value with
  | nil => rfl
  | cons name rest ih =>
    rw [Tree.at?, inner?_tree unshared, part?]
    cases entry : store.inner? value name with
    | none => rfl
    | some part => exact ih (unshared.next entry)

/-! ### Writing to one composite -/

section Written

variable {before after : Store}
  (others : ∀ {other}, other ≠ .composite id → after.contents? other = before.contents? other)

include others

/-- After a write to one composite of an unshared value, its tree is the old one with the subtree
of that composite exchanged. -/
theorem tree_of_write (unshared : before.Unshared value) (stillUnshared : after.Unshared value)
    (there : before.part? value path = some (.composite id)) :
    after.tree value = (before.tree value).graft path (after.tree (.composite id)) := by
  induction path generalizing value with
  | nil =>
    cases there
    rfl
  | cons name rest ih =>
    obtain ⟨next, entry, onward⟩ := Option.bind_eq_some_iff.mp there
    have apart : value ≠ .composite id := fun equal =>
      List.cons_ne_nil name rest (unshared there (congrArg some equal))
    have here := others apart
    have along := ih (unshared.next entry)
      (stillUnshared.next ((inner?_congr here name).trans entry)) onward
    -- The composite stands below one slot only, and the trees of all others stay.
    have aside {other : SlotName} {part : Value} (different : other ≠ name)
        (holds : before.inner? value other = some part) : after.tree part = before.tree part := by
      refine Spares.tree (fun {path deeper} reached => others ?_) (unshared.next holds)
      rintro rfl
      rw [← part?_cons holds] at reached
      exact different (List.cons.inj (unshared reached there)).1
    cases present : before.contents? value with
    | none => simp [inner?, present] at entry
    | some contents =>
      obtain ⟨top, rfl⟩ := exists_id_of_contents? present
      rw [tree_of_some unshared present, tree_of_some stillUnshared (here.trans present)]
      cases contents with
      | array items =>
        cases name with
        | key characters => simp [inner?, present] at entry
        | index position =>
          rw [inner?_array present] at entry
          refine congrArg (Tree.array top) (List.ext_getElem? fun place => ?_)
          rw [List.getElem?_modify, List.getElem?_map, List.getElem?_map]
          by_cases same : position = place
          · subst same
            rw [entry]
            simp [along]
          · cases holds : items[place]? with
            | none => rfl
            | some item =>
              have stays := @aside (.index place) item
                (fun equal => same (SlotName.index.inj equal).symm)
                ((inner?_array present place).trans holds)
              simp [same, stays]
      | object members =>
        cases name with
        | index position => simp [inner?, present] at entry
        | key characters =>
          rw [inner?_object present] at entry
          refine congrArg (Tree.object top) ?_
          rw [List.map_map]
          refine List.map_congr_left fun member inside => ?_
          have holds := Assoc.mem_entries.mp inside
          by_cases same : member.1 = characters
          · rw [same, entry] at holds
            cases holds
            simp [same, along]
          · have stays := @aside (.key member.1) member.2
              (fun equal => same (SlotName.key.inj equal))
              ((inner?_object present member.1).trans holds)
            simp [same, stays]

/-- After a write to one composite, the exchanged subtree has the old trees of what was written. -/
theorem tree_of_contents (unshared : after.Unshared value)
    (there : after.part? value path = some (.composite id))
    (written : after.contents? (.composite id) = some contents) :
    after.tree (.composite id) = contents.tree id before.tree := by
  have inside : after.Unshared (.composite id) := unshared.part there
  rw [tree_of_some inside written]
  refine tree_contents_congr written fun {name part} entry => ?_
  refine (Spares.tree (fun {rest deeper} reached => (others ?_).symm) (inside.next entry)).symm
  -- The composite does not stand below itself.
  rintro rfl
  rw [← part?_cons entry] at reached
  exact List.cons_ne_nil name rest (inside reached rfl)

end Written

end Store

end CodeTree
