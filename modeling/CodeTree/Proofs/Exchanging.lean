/-
Replacing what stands in one slot, told once for arrays and objects. A container takes any number
of values for an element and at most one for a key, and what it makes of its contents then is a
function of the slot and the values. Whether the cursor of the slot is answered depends on its
parent alone: it must keep the cursor and live, and its children must agree with their slots.
-/

import CodeTree.Proofs.Quiet
import CodeTree.Proofs.Refinement
import CodeTree.Proofs.Removed
import CodeTree.Proofs.Sharing

namespace CodeTree

variable {world : World} {store : Store} {part value : Value} {c d parent : CursorId}
  {contents : Composite} {front : List SlotName} {values : List Value} {name slot : SlotName}

/-! ### Contents -/

namespace Store

/-- A container that has the slot takes values for it, if it is an array or there are few. -/
theorem takes_of_inner? {holder : Value} (entry : store.inner? holder slot = some part)
    (few : ∀ characters, slot = .key characters → values.length ≤ 1) :
    ∃ contents, store.contents? holder = some contents ∧ contents.Takes slot values := by
  cases present : store.contents? holder with
  | none => simp [inner?, present] at entry
  | some contents =>
    rw [inner?_of_contents present] at entry
    refine ⟨contents, rfl, ?_⟩
    cases contents with
    | array items =>
      cases slot with
      | index position => exact ⟨position, rfl, (List.getElem?_eq_some_iff.mp entry).1⟩
      | key characters => cases entry
    | object members =>
      cases slot with
      | index position => cases entry
      | key characters => exact ⟨⟨characters, rfl⟩, few characters rfl⟩

/-- Arrays have room for a number of further elements. -/
def HasRoom (store : Store) (count : Nat) : Prop :=
  ∀ {value items}, store.contents? value = some (.array items) → items.length + count < indexBound

theorem HasRoom.fits {count : Nat} (room : store.HasRoom count) : store.Fits :=
  fun array => Nat.lt_of_le_of_lt (Nat.le_add_right _ count) (room array)

section Exchange

variable {before after : Store} {target : Value} {slot : SlotName} {values : List Value}
  {contents : Composite} {count : Nat} (takes : contents.Takes slot values)
  (written : after.contents? target = some (contents.exchange slot values))
  (others : ∀ {other}, other ≠ target → after.contents? other = before.contents? other)

include takes written others

/-- Arrays have room after an exchange that leaves the written one small enough. -/
theorem hasRoom_of_exchange (room : before.HasRoom count) (small : ∀ {items},
      contents = .array items → items.length + values.length + count ≤ indexBound) :
    after.HasRoom count := by
  intro value items array
  by_cases same : value = target
  · subst same
    rw [written] at array
    cases contents with
    | object members =>
      obtain ⟨⟨characters, rfl⟩, _⟩ := takes
      cases values <;> cases array
    | array old =>
      obtain ⟨position, rfl, inside⟩ := takes
      cases array
      have length := @length_splice _ position 1 values old inside
      have enough := small rfl
      omega
  · rw [others same] at array
    exact room array

/-- What is left of the room after an exchange. -/
theorem HasRoom.exchange (room : before.HasRoom (values.length + count))
    (present : before.contents? target = some contents) : after.HasRoom count := by
  refine hasRoom_of_exchange takes written others (fun array => ?_) fun {items} same => ?_
  · have enough := room array
    omega
  · subst same
    have enough := room present
    omega

end Exchange

end Store

/-! ### The cursor of the slot -/

namespace World

/-- A cursor in a slot of a container. -/
structure Standing (world : World) (front : List SlotName) (slot : SlotName) (c parent : CursorId)
    (contents : Composite) : Prop where
  toParent : world.follow? 0 front = some parent
  kept : world.kept? parent slot = some c
  present : world.store.contents? (world.value parent) = some contents

/-- A cursor at a slot that the tree has stands in a container that takes values for it. -/
theorem Coherent.standing (coherent : Coherent 0 world)
    (leads : world.follow? 0 (front ++ [slot]) = some c)
    (filled : world.store.part? (world.value 0) (front ++ [slot]) ≠ none) (values : List Value)
    (few : ∀ characters, slot = .key characters → values.length ≤ 1) : ∃ parent contents,
      world.Standing front slot c parent contents ∧ contents.Takes slot values ∧
      contents.inner? slot ≠ none := by
  obtain ⟨parent, toParent, kept⟩ := follow?_concat.mp leads
  obtain ⟨part, there⟩ := Option.ne_none_iff_exists'.mp filled
  obtain ⟨holder, reached, entry⟩ := Store.part?_concat.mp there
  obtain ⟨contents, present, takes⟩ := Store.takes_of_inner? entry few
  obtain ⟨id, rfl⟩ := Store.exists_id_of_contents? present
  have here := Value.same_composite_left.mp (coherent.same_of_part toParent reached)
  refine ⟨parent, contents, ⟨toParent, kept, ?_⟩, takes, ?_⟩
  · rw [here]
    exact present
  · rw [← Store.inner?_of_contents present, entry]
    exact Option.some_ne_none part

/-- From one world to another, values have taken the place of what stood in the slot of a cursor
`c` below a cursor `parent`. No other cursor has taken another value, and the cursors of the slots
that stay have moved with them. -/
def Replacement (c parent : CursorId) (slot : SlotName) (count : Nat) (new : Composite)
    (before after : World) : Prop :=
  ∃ taken emptied moves, Effect parent taken emptied moves (some new) before after ∧
    (∀ {d}, taken d → d = c) ∧
    ∀ {name target}, slot.replaced count name = some target → moves name = some target

/-- Values that a container takes for the slot of a cursor are answered with cursors, and take
the place of what stood there. The cursor is kept for what comes first, if anything comes. -/
theorem replace_takes (sound : Sound world)
    (agrees : ∀ {name d}, world.kept? parent name = some d → Agrees world parent name d)
    (kept : world.kept? parent slot = some c) (alive : world.isAlive parent = true)
    (present : world.store.contents? (world.value parent) = some contents)
    (takes : contents.Takes slot values) (proper : ∀ value ∈ values, value.isNaN = false)
    (fits : world.store.Fits)
    (small : ∀ {items}, contents = .array items → items.length + values.length ≤ indexBound) :
    ∃ cs after, Action.replace c values world = .ok cs after ∧
      Replacement c parent slot values.length (contents.exchange slot values) world after ∧
      Quiet world after ∧ (values ≠ [] → after.kept? parent slot = some c) ∧
      (values = [] → (∃ characters, slot = .key characters) → after.value c = .null) := by
  obtain ⟨after, result, supplants⟩ := replace_supplants sound agrees kept alive present takes
    proper fun {items} same => by
      subst same
      obtain ⟨index, rfl, inside⟩ := takes
      have alike := alike_withoutViews world c
      -- Whichever way it ends, the spliced array is what is written, and it fits.
      have written := (Action.replaceElement_written (inStep_withoutViews sound agrees kept)
        ((contents?_withoutViews world c parent).trans present) inside values).1
      rw [replace_element sound agrees kept alive rfl present, written, writeItems, alike.store,
        alike.value]
      exact @Store.hasRoom_of_exchange _ _ (world.value parent) (.index index) values (.array items)
        0 ⟨index, rfl, inside⟩ (Store.contents?_modifyItems_self present _)
        (fun different => Store.contents?_modifyItems_other _ different _) fits small
  obtain ⟨moves, effect, goes, stays⟩ := supplants.effect
  have quiet := Action.isQuiet_replace c values world
  rw [result] at quiet
  exact ⟨_, after, result, ⟨_, _, moves, effect, id, goes⟩, quiet,
    fun some => effect.survives kept (stays some), supplants.nulled⟩

end World

/-! ### The tree after a replacement -/

/-- The tree after some trees have taken the place of what stood in a slot of the container at the
end of a path. -/
def Tree.exchange (tree : Tree) (front : List SlotName) (slot : SlotName) (trees : List Tree) :
    Tree :=
  (tree.at? front).elim tree fun container =>
    tree.graft front (container.exchangeSlot slot trees)

namespace World

/-- The tree of a world. -/
def tree (world : World) : Tree := world.store.tree (world.value 0)

/-- From one world to another, values have taken the place of what stood in a slot of the tree,
and the cursors of what stayed have moved along. -/
structure Exchanges (front : List SlotName) (slot : SlotName) (values : List Value)
    (before after : World) : Prop where
  root : after.value 0 = before.value 0
  tree : after.tree = before.tree.exchange front slot (values.map before.store.tree)
  survives : ∀ {path moved d}, before.follow? 0 path = some d →
    SlotName.movePath (slot.replaced values.length) front path = some moved →
      after.follow? 0 moved = some d ∧ after.value d = before.value d

namespace Replacement

variable {after : World}
  (replacement : Replacement c parent slot values.length (contents.exchange slot values) world after)

include replacement

theorem written :
    after.store.contents? (world.value parent) = some (contents.exchange slot values) := by
  obtain ⟨_, _, _, effect, _⟩ := replacement
  exact effect.written

theorem others (different : value ≠ world.value parent) :
    after.store.contents? value = world.store.contents? value := by
  obtain ⟨_, _, _, effect, _⟩ := replacement
  exact effect.contents different

theorem value_other (inside : d < world.cursors.size) (different : d ≠ c) :
    after.value d = world.value d := by
  obtain ⟨_, _, _, effect, only, _⟩ := replacement
  exact effect.value inside fun took => different (only took)

variable (standing : world.Standing front slot c parent contents)

include standing

section Takes

variable (takes : contents.Takes slot values)

include takes

/-- What stands in the container afterwards is known. -/
theorem entries (entry : after.store.inner? (world.value parent) name = some part) :
    (∃ old, world.store.inner? (world.value parent) old = some part ∧
      slot.replaced values.length old = some name) ∨
    ∃ position, values[position]? = some part ∧ name = slot.further position := by
  rw [Store.inner?_of_contents replacement.written] at entry
  simp only [Store.inner?_of_contents standing.present]
  exact Composite.inner?_exchange takes entry

theorem source (entry : after.store.inner? (world.value parent) name = some part) :
    part ∈ values ∨ ∃ old, world.store.inner? (world.value parent) old = some part := by
  rcases replacement.entries standing takes entry with ⟨old, stood, _⟩ | ⟨_, new, _⟩
  · exact .inr ⟨old, stood⟩
  · exact .inl (List.mem_of_getElem? new)

end Takes

variable (coherent : Coherent 0 world)

include coherent

theorem value_root : after.value 0 = world.value 0 := by
  refine replacement.value_other coherent.present ?_
  rintro rfl
  have above := (coherent.sound.kept standing.kept).1
  rw [coherent.top] at above
  cases above

/-- A replacement by values that the tree admits leaves the world coherent. -/
theorem coherent_after (takes : contents.Takes slot values)
    (admits : world.store.Admits (world.value 0) (front ++ [slot]) values)
    (free : ∀ value ∈ values, world.store.NaNFree value) : Coherent 0 after := by
  have sameRoot := replacement.value_root standing coherent
  have known {name : SlotName} {part : Value}
      (entry : after.store.inner? (world.value parent) name = some part) :=
    replacement.entries standing takes entry
  have sources {name : SlotName} {part : Value}
      (entry : after.store.inner? (world.value parent) name = some part) :=
    (replacement.source standing takes entry).imp_left (List.mem_cons_of_mem (world.value 0))
  obtain ⟨id, here⟩ := Store.exists_id_of_contents? standing.present
  have there := coherent.part_of_follow standing.toParent here
  obtain ⟨_, _, _, effect, _⟩ := replacement
  refine effect.coherent_after coherent standing.toParent ?_ ?_ <;> rw [sameRoot]
  · rw [here] at known
    refine admits.unshared (fun {other} different => effect.contents ?_) coherent.unshared there
      known
    rw [here]
    exact different
  · refine Store.NaNFree.of_write effect.contents sources List.mem_cons_self fun source member => ?_
    rcases List.mem_cons.mp member with rfl | new
    · exact coherent.free
    · exact free source new

/-- The tree after a replacement, and the cursors that have moved. -/
theorem exchanges (coherentAfter : Coherent 0 after) : Exchanges front slot values world after := by
  have sameRoot := replacement.value_root standing coherent
  obtain ⟨toParent, kept, present⟩ := standing
  obtain ⟨id, here⟩ := Store.exists_id_of_contents? present
  obtain ⟨_, _, _, effect, only, moves⟩ := replacement
  have exchanged := @Effect.exchanged _ _ _ _ (slot.replaced values.length) _ _ _ _ _ effect
    coherent coherentAfter toParent here (by
      intro name target d keptThere goes
      exact ⟨moves goes,
        fun took => coherent.sound.ne_of_replaced kept keptThere goes (only took)⟩)
  refine ⟨sameRoot, ?_, exchanged.survives⟩
  rw [here] at present
  rw [tree, exchanged.tree, Tree.exchange, tree, coherent.at?_of_contents toParent here present,
    Option.elim, Composite.tree_exchange]

end Replacement

/-- Values that the tree admits in a slot of a container that takes them are answered, and the
tree is exchanged there. -/
theorem Coherent.replace (coherent : Coherent 0 world) (held : world.isHeld 0 = true)
    (standing : world.Standing front slot c parent contents) (takes : contents.Takes slot values)
    (admits : world.store.Admits (world.value 0) (front ++ [slot]) values)
    (free : ∀ value ∈ values, world.store.NaNFree value) (fits : world.store.Fits)
    (small : ∀ {items}, contents = .array items → items.length + values.length ≤ indexBound) :
    ∃ cs after, Action.replace c values world = .ok cs after ∧
      Replacement c parent slot values.length (contents.exchange slot values) world after ∧
      Quiet world after ∧ Coherent 0 after ∧ Exchanges front slot values world after ∧
      (values ≠ [] → after.kept? parent slot = some c) ∧
      (values = [] → (∃ characters, slot = .key characters) → after.value c = .null) := by
  have alive := coherent.sound.isAlive_of_follow (isAlive_of_isHeld held) standing.toParent
  obtain ⟨cs, after, result, replacement, quiet, keeps⟩ := replace_takes coherent.sound
    (coherent.agrees standing.toParent) standing.kept alive standing.present takes
    (fun value member => Store.NaNFree.self (free value member)) fits small
  have coherentAfter := replacement.coherent_after standing coherent takes admits free
  exact ⟨cs, after, result, replacement, quiet, coherentAfter,
    replacement.exchanges standing coherent coherentAfter, keeps⟩

end World

end CodeTree
