/-
What becomes of a cursor that nobody keeps. Such a cursor can still be held and asked, and it
remembers the cursor above it, its name and its value. No change of the other cursors reaches it:
children are looked for where they are kept, renamed where they are kept, and kept again only
when they ask for it themselves.
-/

import CodeTree.Proofs.Structure

namespace CodeTree

variable {c d parent : CursorId}

namespace World

/-- A cursor that nobody keeps. -/
structure Forgotten (world : World) (c : CursorId) : Prop where
  inside : c < world.cursors.size
  unkept : ∀ parent name, world.kept? parent name ≠ some c

/-- A change after which a cursor is forgotten that remembers all that it remembered before. -/
structure Leaves (c : CursorId) (before after : World) : Prop where
  forgotten : after.Forgotten c
  value : after.value c = before.value c
  name : after.name? c = before.name? c
  above : after.above? c = before.above? c

theorem Leaves.trans {first second third : World} (left : Leaves c first second)
    (right : Leaves c second third) : Leaves c first third where
  forgotten := right.forgotten
  value := right.value.trans left.value
  name := right.name.trans left.name
  above := right.above.trans left.above

namespace Forgotten

variable {world : World} (forgotten : world.Forgotten c)

include forgotten

theorem refl : Leaves c world world := ⟨forgotten, rfl, rfl, rfl⟩

/-- A change of kept children and of other names leaves a forgotten cursor alone if it does not
keep it. -/
theorem of_alike {after : World} (alike : Alike world after) (name : after.name? c = world.name? c)
    (kept : ∀ {parent name}, after.kept? parent name = some c →
      ∃ holder other, world.kept? holder other = some c) : Leaves c world after where
  forgotten :=
    { inside := by rw [alike.size]; exact forgotten.inside
      unkept := by
        intro parent name found
        obtain ⟨holder, other, before⟩ := kept found
        exact forgotten.unkept holder other before }
  value := alike.value c
  name := name
  above := alike.above c

/-! ### Changes of kept children -/

theorem withStore (store : Store) : Leaves c world { world with store } :=
  ⟨⟨forgotten.inside, forgotten.unkept⟩, rfl, rfl, rfl⟩

theorem withHeld (held : List CursorId) : Leaves c world { world with held } :=
  ⟨⟨forgotten.inside, forgotten.unkept⟩, rfl, rfl, rfl⟩

theorem forget (d : CursorId) (name : SlotName) : Leaves c world (world.forget d name) := by
  refine forgotten.of_alike (alike_forget world d name) (name?_forget world d c name) ?_
  exact fun kept => ⟨_, _, kept?_of_forget kept⟩

theorem forgetAll (d : CursorId) : Leaves c world (world.forgetAll d) := by
  refine forgotten.of_alike (alike_forgetAll world d) (name?_forgetAll world d c) ?_
  intro parent other kept
  rw [kept?_forgetAll] at kept
  split at kept
  · cases kept
  · exact ⟨parent, other, kept⟩

theorem forgetOnly (d : CursorId) (name : SlotName) (child : CursorId) :
    Leaves c world (world.forgetOnly d name child) := by
  unfold World.forgetOnly
  split
  · exact forgotten.forget d name
  · exact forgotten.refl

/-- Only the cursor itself can be brought back. -/
theorem keep {child : CursorId} (inside : parent < world.cursors.size) (name : SlotName)
    (different : c ≠ child) : Leaves c world (world.keep parent name child) := by
  refine forgotten.of_alike (alike_keep world parent name child)
    (name?_keep world parent c name child) ?_
  intro holder other kept
  rw [kept?_keep world inside] at kept
  split at kept
  · exact absurd (Option.some.inj kept).symm different
  · exact ⟨holder, other, kept⟩

theorem rename (different : c ≠ d) (name : SlotName) : Leaves c world (world.rename d name) := by
  refine forgotten.of_alike (alike_rename world d name) (name?_rename_other world different name) ?_
  intro parent other kept
  rw [kept?_rename] at kept
  exact ⟨parent, other, kept⟩

/-! ### Changes of other cursors -/

theorem setValue (different : c ≠ d) (value : Value) : Leaves c world (world.setValue d value) where
  forgotten :=
    { inside := by rw [World.setValue, size_modifyCursor]; exact forgotten.inside
      unkept := by
        intro parent name kept
        rw [kept?_setValue] at kept
        exact forgotten.unkept parent name kept }
  value := value_setValue_other world different value
  name := name?_setValue world d c value
  above := above?_setValue world d c value

theorem addChild (inside : parent < world.cursors.size) (name : SlotName) (value : Value) :
    Leaves c world (world.addChild parent name value).2 where
  forgotten :=
    { inside := by rw [size_addChild]; exact Nat.lt_succ_of_lt forgotten.inside
      unkept := by
        intro holder other kept
        rw [kept?_addChild _ _ _ inside] at kept
        split at kept
        · exact Nat.ne_of_lt forgotten.inside (Option.some.inj kept).symm
        · exact forgotten.unkept holder other kept }
  value := by rw [value_addChild, if_neg (Nat.ne_of_lt forgotten.inside)]
  name := by rw [name?_addChild, if_neg (Nat.ne_of_lt forgotten.inside)]
  above := by rw [above?_addChild, if_neg (Nat.ne_of_lt forgotten.inside)]

theorem addRoot (value : Value) : Leaves c world (world.addRoot value).2 := by
  have same : (world.addRoot value).2.cursor c = world.cursor c := by
    rw [cursor_addRoot, if_neg (Nat.ne_of_lt forgotten.inside)]
  refine ⟨⟨?_, ?_⟩, congrArg Cursor.value same, congrArg Cursor.name? same,
    congrArg Cursor.parent? same⟩
  · rw [size_addRoot]
    exact Nat.lt_succ_of_lt forgotten.inside
  · intro parent name
    rw [kept?_addRoot]
    exact forgotten.unkept parent name

theorem child (inside : d < world.cursors.size) (name : SlotName) :
    Leaves c world (world.child d name).2 := by
  rcases world.child_cases d name with ⟨_, _, _, result⟩ | ⟨_, result⟩
  · rw [result]
    exact forgotten.refl
  · rw [result]
    exact forgotten.addChild inside _ _

end Forgotten

end World

end CodeTree
