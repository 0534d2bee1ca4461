/-
What the small changes of a world show. A world is looked at through a few observations of its
cursors: the value a cursor remembers, its name, the cursor above it, the root it came from, and
the children it keeps. Every edit is made of changes to one cursor, and each of these touches
one observation and leaves the others alone.
-/

import CodeTree.Cursor.Edit
import CodeTree.Proofs.Slots

namespace CodeTree

namespace World

variable {c d child : CursorId}

/-! ### Observations -/

/-- The child that a cursor keeps under a name. -/
def kept? (world : World) (c : CursorId) (name : SlotName) : Option CursorId :=
  (world.cursor c).children.get? name

/-- The cursor above a cursor, whether it still lives or not. -/
def above? (world : World) (c : CursorId) : Option CursorId := (world.cursor c).parent?

/-- The root that a cursor was reached from. -/
def origin (world : World) (c : CursorId) : CursorId := (world.cursor c).root

/-- Two worlds whose cursors differ at most in their names, their kept children and their views. -/
structure Alike (before after : World) : Prop where
  store : after.store = before.store
  size : after.cursors.size = before.cursors.size
  scopes : after.scopes = before.scopes
  held : after.held = before.held
  value : ∀ c, after.value c = before.value c
  above : ∀ c, after.above? c = before.above? c
  origin : ∀ c, after.origin c = before.origin c

theorem Alike.refl (world : World) : Alike world world :=
  ⟨rfl, rfl, rfl, rfl, fun _ => rfl, fun _ => rfl, fun _ => rfl⟩

theorem Alike.trans {first second third : World} (left : Alike first second)
    (right : Alike second third) : Alike first third where
  store := right.store.trans left.store
  size := right.size.trans left.size
  scopes := right.scopes.trans left.scopes
  held := right.held.trans left.held
  value c := (right.value c).trans (left.value c)
  above c := (right.above c).trans (left.above c)
  origin c := (right.origin c).trans (left.origin c)

theorem Alike.contents? {before after : World} (alike : Alike before after) (c : CursorId) :
    after.store.contents? (after.value c) = before.store.contents? (before.value c) := by
  rw [alike.store, alike.value]

/-! ### Changing one cursor -/

variable (world : World)

theorem cursor_modifyCursor (c d : CursorId) (change : Cursor → Cursor) :
    (world.modifyCursor c change).cursor d =
      if d = c ∧ c < world.cursors.size then change (world.cursor c) else world.cursor d := by
  simp only [modifyCursor, cursor, Array.getElem?_modify]
  by_cases same : c = d
  · subst same
    by_cases inside : c < world.cursors.size
    · simp [inside]
    · simp [inside]
  · rw [if_neg same, if_neg (fun both => same both.1.symm)]

theorem cursor_modifyCursor_other (different : d ≠ c) (change : Cursor → Cursor) :
    (world.modifyCursor c change).cursor d = world.cursor d := by
  rw [cursor_modifyCursor, if_neg (fun both => different both.1)]

theorem cursor_modifyCursor_self (inside : c < world.cursors.size) (change : Cursor → Cursor) :
    (world.modifyCursor c change).cursor c = change (world.cursor c) := by
  rw [cursor_modifyCursor, if_pos ⟨rfl, inside⟩]

/-- What a change keeps at every cursor reads the same after it. -/
theorem field_modifyCursor {α : Type} (field : Cursor → α) {change : Cursor → Cursor}
    (world : World) (c d : CursorId) (harmless : ∀ cursor, field (change cursor) = field cursor) :
    field ((world.modifyCursor c change).cursor d) = field (world.cursor d) := by
  rw [cursor_modifyCursor]
  split
  · rename_i both
    rw [harmless, both.1]
  · rfl

@[simp] theorem size_modifyCursor (c : CursorId) (change : Cursor → Cursor) :
    (world.modifyCursor c change).cursors.size = world.cursors.size := by
  simp [modifyCursor]

theorem alike_modifyCursor (c : CursorId) (change : Cursor → Cursor)
    (harmless : ∀ cursor, (change cursor).value = cursor.value ∧
      (change cursor).parent? = cursor.parent? ∧ (change cursor).root = cursor.root) :
    Alike world (world.modifyCursor c change) where
  store := rfl
  size := size_modifyCursor world c change
  scopes := rfl
  held := rfl
  value d := field_modifyCursor Cursor.value world c d fun _ => (harmless _).1
  above d := field_modifyCursor Cursor.parent? world c d fun _ => (harmless _).2.1
  origin d := field_modifyCursor Cursor.root world c d fun _ => (harmless _).2.2

theorem alike_keep (c : CursorId) (name : SlotName) (child : CursorId) :
    Alike world (world.keep c name child) :=
  alike_modifyCursor world c _ fun _ => ⟨rfl, rfl, rfl⟩

theorem alike_forget (c : CursorId) (name : SlotName) : Alike world (world.forget c name) :=
  alike_modifyCursor world c _ fun _ => ⟨rfl, rfl, rfl⟩

theorem alike_forgetAll (c : CursorId) : Alike world (world.forgetAll c) :=
  alike_modifyCursor world c _ fun _ => ⟨rfl, rfl, rfl⟩

theorem alike_rename (c : CursorId) (name : SlotName) : Alike world (world.rename c name) :=
  alike_modifyCursor world c _ fun _ => ⟨rfl, rfl, rfl⟩

theorem alike_forgetOnly (c : CursorId) (name : SlotName) (child : CursorId) :
    Alike world (world.forgetOnly c name child) := by
  unfold forgetOnly
  split
  · exact alike_forget world c name
  · exact Alike.refl world

/-! ### Names -/

theorem name?_keep (c d : CursorId) (name : SlotName) (child : CursorId) :
    (world.keep c name child).name? d = world.name? d :=
  field_modifyCursor Cursor.name? world c d fun _ => rfl

theorem name?_forget (c d : CursorId) (name : SlotName) :
    (world.forget c name).name? d = world.name? d :=
  field_modifyCursor Cursor.name? world c d fun _ => rfl

theorem name?_forgetAll (c d : CursorId) : (world.forgetAll c).name? d = world.name? d :=
  field_modifyCursor Cursor.name? world c d fun _ => rfl

theorem name?_setValue (c d : CursorId) (value : Value) :
    (world.setValue c value).name? d = world.name? d :=
  field_modifyCursor Cursor.name? world c d fun _ => rfl

theorem name?_forgetOnly (c d : CursorId) (name : SlotName) (child : CursorId) :
    (world.forgetOnly c name child).name? d = world.name? d := by
  unfold forgetOnly
  split
  · exact name?_forget world c d name
  · rfl

theorem name?_rename_self (inside : c < world.cursors.size) (name : SlotName) :
    (world.rename c name).name? c = some name := by
  simp only [name?, rename, cursor_modifyCursor_self world inside]

theorem name?_rename_other (different : d ≠ c) (name : SlotName) :
    (world.rename c name).name? d = world.name? d := by
  simp only [name?, rename, cursor_modifyCursor_other world different]

/-! ### Kept children -/

theorem kept?_rename (c d : CursorId) (name other : SlotName) :
    (world.rename c name).kept? d other = world.kept? d other :=
  field_modifyCursor (fun cursor => cursor.children.get? other) world c d fun _ => rfl

theorem kept?_setValue (c d : CursorId) (value : Value) (name : SlotName) :
    (world.setValue c value).kept? d name = world.kept? d name :=
  field_modifyCursor (fun cursor => cursor.children.get? name) world c d fun _ => rfl

theorem kept?_of_size_le (outside : world.cursors.size ≤ c) (name : SlotName) :
    world.kept? c name = none := by
  simp only [kept?, cursor, Array.getElem?_eq_none outside]
  rfl

theorem lt_size_of_kept? {world : World} {c child : CursorId} {name : SlotName}
    (kept : world.kept? c name = some child) : c < world.cursors.size := by
  refine Nat.lt_of_not_le fun outside => ?_
  rw [world.kept?_of_size_le outside name] at kept
  cases kept

theorem kept?_keep (inside : c < world.cursors.size) (name : SlotName)
    (child d : CursorId) (other : SlotName) :
    (world.keep c name child).kept? d other =
      if d = c ∧ other = name then some child else world.kept? d other := by
  by_cases same : d = c
  · subst same
    simp only [kept?, keep, cursor_modifyCursor_self world inside, Assoc.get?_insert, true_and]
  · simp only [kept?, keep, cursor_modifyCursor_other world same, same, false_and, if_false]

theorem kept?_forget (c : CursorId) (name : SlotName) (d : CursorId) (other : SlotName) :
    (world.forget c name).kept? d other =
      if d = c ∧ other = name then none else world.kept? d other := by
  by_cases same : d = c
  · subst same
    by_cases inside : d < world.cursors.size
    · simp only [kept?, forget, cursor_modifyCursor_self world inside, Assoc.get?_erase, true_and]
    · have outside : world.cursors.size ≤ d := Nat.le_of_not_lt inside
      rw [world.kept?_of_size_le outside, kept?_of_size_le _ (by simpa [forget] using outside)]
      split <;> rfl
  · simp only [kept?, forget, cursor_modifyCursor_other world same, same, false_and, if_false]

theorem kept?_of_forget {world : World} {parent : CursorId} {name other : SlotName}
    (kept : (world.forget c name).kept? parent other = some child) :
    world.kept? parent other = some child := by
  rw [kept?_forget] at kept
  split at kept
  · cases kept
  · exact kept

theorem kept?_forget_self {world : World} {gone name : SlotName} :
    (world.forget c gone).kept? c name = some child ↔
      name ≠ gone ∧ world.kept? c name = some child := by
  rw [kept?_forget]
  split <;> simp_all

theorem kept?_forgetAll (c d : CursorId) (name : SlotName) :
    (world.forgetAll c).kept? d name = if d = c then none else world.kept? d name := by
  by_cases same : d = c
  · subst same
    by_cases inside : d < world.cursors.size
    · simp only [kept?, forgetAll, cursor_modifyCursor_self world inside, Assoc.get?_empty, if_true]
    · have outside : world.cursors.size ≤ d := Nat.le_of_not_lt inside
      rw [kept?_of_size_le _ (by simpa [forgetAll] using outside), if_pos rfl]
  · simp only [kept?, forgetAll, cursor_modifyCursor_other world same, same, if_false]

theorem kept?_forgetOnly (c : CursorId) (name : SlotName) (child d : CursorId) (other : SlotName) :
    (world.forgetOnly c name child).kept? d other =
      if d = c ∧ other = name ∧ world.kept? c name = some child then none
      else world.kept? d other := by
  have unfolded : world.forgetOnly c name child =
      if world.kept? c name = some child then world.forget c name else world := rfl
  by_cases held : world.kept? c name = some child
  · rw [unfolded, if_pos held, kept?_forget]
    simp only [held, and_true]
  · rw [unfolded, if_neg held, if_neg (fun all => held all.2.2)]

/-- Keeping a child that is kept under that name already changes nothing. -/
theorem keep_of_kept? {world : World} {name : SlotName} (kept : world.kept? c name = some child) :
    world.keep c name child = world := by
  have inside := lt_size_of_kept? kept
  have unchanged : (world.cursor c).children.insert name child = (world.cursor c).children :=
    Assoc.insert_of_get? kept
  have same : world.cursors.modify c (fun cursor =>
      { cursor with children := cursor.children.insert name child }) = world.cursors := by
    refine Array.ext_getElem? fun d => ?_
    rw [Array.getElem?_modify]
    split
    · rename_i equal
      subst equal
      have present : world.cursors[c]? = some (world.cursor c) := by
        simp [cursor, inside]
      rw [present, Option.map_some, unchanged]
    · rfl
  simp only [keep, modifyCursor, same]

/-! ### Remembered values -/

theorem value_setValue_self (inside : c < world.cursors.size) (value : Value) :
    (world.setValue c value).value c = value := by
  simp only [World.value, setValue, cursor_modifyCursor_self world inside]

theorem value_setValue_other (different : d ≠ c) (value : Value) :
    (world.setValue c value).value d = world.value d := by
  simp only [World.value, setValue, cursor_modifyCursor_other world different]

theorem above?_setValue (c d : CursorId) (value : Value) :
    (world.setValue c value).above? d = world.above? d :=
  field_modifyCursor Cursor.parent? world c d fun _ => rfl

theorem origin_setValue (c d : CursorId) (value : Value) :
    (world.setValue c value).origin d = world.origin d :=
  field_modifyCursor Cursor.root world c d fun _ => rfl

end World

end CodeTree
