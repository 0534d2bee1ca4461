/-
The structure of the kept cursors. A child is kept under the name it bears, by the cursor that
stands above it, and a cursor is younger than the one above it. So nothing is kept twice, and
the kept cursors form a forest whose branches lead from older to younger cursors.

Nothing here looks at the store. The structure therefore does not care what is written to the
composites, by whom, or whether the cursors have noticed.
-/

import CodeTree.Proofs.Kept

namespace CodeTree

variable {after before world : World} {c parent : CursorId} {name : SlotName}

namespace World

/-- The structure of the kept cursors. -/
structure Sound (world : World) : Prop where
  older : ∀ {c parent}, world.above? c = some parent → parent < c
  named : ∀ c, (world.name? c).isSome = (world.above? c).isSome
  rooted : ∀ {c parent}, world.above? c = some parent → world.origin c = world.origin parent
  topmost : ∀ {c}, c < world.cursors.size → world.above? c = none → world.origin c = c
  kept : ∀ {parent name c}, world.kept? parent name = some c →
    world.above? c = some parent ∧ world.name? c = some name ∧ c < world.cursors.size
  held : ∀ {c}, c ∈ world.held → c < world.cursors.size

theorem lt_size_of_above? (above : world.above? c = some parent) : c < world.cursors.size := by
  refine Nat.lt_of_not_le fun outside => ?_
  simp only [above?, cursor, Array.getElem?_eq_none outside] at above
  cases above

theorem Sound.parent_lt_size (sound : Sound world) (above : world.above? c = some parent) :
    parent < world.cursors.size :=
  Nat.lt_trans (sound.older above) (lt_size_of_above? above)

/-- A world without cursors has nothing that could be out of order. -/
theorem sound_bare (store : Store) (scopes : Array Scope) : Sound ⟨store, #[], scopes, []⟩ where
  older above := absurd (lt_size_of_above? above) (Nat.not_lt_zero _)
  named _ := by
    simp only [name?, above?, cursor, Array.getElem?_empty]
    rfl
  rooted above := absurd (lt_size_of_above? above) (Nat.not_lt_zero _)
  topmost inside := absurd inside (Nat.not_lt_zero _)
  kept kept := absurd (lt_size_of_kept? kept) (Nat.not_lt_zero _)
  held inside := absurd inside (List.not_mem_nil)

theorem name?_of_size_le (outside : world.cursors.size ≤ c) : world.name? c = none := by
  simp only [name?, cursor, Array.getElem?_eq_none outside]
  rfl

namespace Sound

section Sound

variable (sound : Sound world)

include sound

/-- No cursor is kept under two names, or by two cursors. -/
theorem kept_unique {other : CursorId} {otherName : SlotName}
    (first : world.kept? parent name = some c) (second : world.kept? other otherName = some c) :
    parent = other ∧ name = otherName := by
  have here := sound.kept first
  have there := sound.kept second
  constructor
  · exact Option.some.inj (here.1.symm.trans there.1)
  · exact Option.some.inj (here.2.1.symm.trans there.2.1)

/-- What stands below a cursor has a name. -/
theorem exists_name (above : world.above? c = some parent) : ∃ name, world.name? c = some name := by
  rw [← Option.isSome_iff_exists, sound.named, above]
  rfl

theorem name?_of_topmost (topmost : world.above? c = none) : world.name? c = none := by
  rw [← Option.isNone_iff_eq_none, ← Option.not_isSome, sound.named, topmost]
  rfl

theorem lt_of_kept (kept : world.kept? parent name = some c) : parent < c :=
  sound.older (sound.kept kept).1

/-- A cursor is kept under its own name or not at all. -/
theorem not_kept_of_name (above : world.above? c = some parent) (bears : world.name? c = some name)
    (absent : world.kept? parent name ≠ some c) (other : CursorId) (otherName : SlotName) :
    world.kept? other otherName ≠ some c := by
  intro kept
  have there := sound.kept kept
  rw [above] at there
  rw [bears] at there
  obtain ⟨sameParent, sameName, _⟩ := there
  cases sameParent
  cases sameName
  exact absent kept

end Sound

/-! ### Changes that keep the structure -/

/-- A change of names and kept children keeps the structure if what is kept afterwards bears
the right name and stands below the right cursor. -/
theorem of_alike (sound : Sound before) (alike : Alike before after)
    (named : ∀ c, (after.name? c).isSome = (before.name? c).isSome)
    (kept : ∀ {parent name c}, after.kept? parent name = some c →
      before.above? c = some parent ∧ after.name? c = some name) : Sound after where
  older above := by rw [alike.above] at above; exact sound.older above
  named c := by rw [named, alike.above, sound.named]
  rooted above := by
    rw [alike.above] at above
    rw [alike.origin, alike.origin]
    exact sound.rooted above
  topmost inside above := by
    rw [alike.size] at inside
    rw [alike.above] at above
    rw [alike.origin]
    exact sound.topmost inside above
  kept found := by
    obtain ⟨above, bears⟩ := kept found
    rw [alike.above, alike.size]
    exact ⟨above, bears, lt_size_of_above? above⟩
  held inside := by
    rw [alike.held] at inside
    rw [alike.size]
    exact sound.held inside

/-- Nothing is out of order if no name changes and nothing is kept that was not kept before. -/
theorem of_fewer (sound : Sound before) (alike : Alike before after)
    (same : ∀ c, after.name? c = before.name? c)
    (kept : ∀ {parent name c}, after.kept? parent name = some c → before.kept? parent name = some c) :
    Sound after := by
  refine sound.of_alike alike (fun c => congrArg Option.isSome (same c)) fun found => ?_
  rw [same]
  exact ⟨(sound.kept (kept found)).1, (sound.kept (kept found)).2.1⟩

section Changes

variable (sound : Sound world)

include sound

theorem withStore (store : Store) : Sound { world with store } :=
  ⟨sound.older, sound.named, sound.rooted, sound.topmost, sound.kept, sound.held⟩

theorem forget (c : CursorId) (name : SlotName) : Sound (world.forget c name) :=
  sound.of_fewer (alike_forget world c name) (fun d => name?_forget world c d name) kept?_of_forget

theorem forgetAll (c : CursorId) : Sound (world.forgetAll c) := by
  refine sound.of_fewer (alike_forgetAll world c) (name?_forgetAll world c) fun kept => ?_
  rw [kept?_forgetAll] at kept
  split at kept
  · cases kept
  · exact kept

theorem forgetOnly (c : CursorId) (name : SlotName) (child : CursorId) :
    Sound (world.forgetOnly c name child) := by
  unfold World.forgetOnly
  split
  · exact sound.forget c name
  · exact sound

theorem keep {child : CursorId} (above : world.above? child = some c)
    (bears : world.name? child = some name) : Sound (world.keep c name child) := by
  have inside := sound.parent_lt_size above
  refine sound.of_alike (alike_keep world c name child) ?_ ?_
  · intro d
    rw [name?_keep]
  · intro parent other d kept
    rw [kept?_keep world inside] at kept
    rw [name?_keep]
    split at kept
    · rename_i here
      cases kept
      rw [here.1, here.2]
      exact ⟨above, bears⟩
    · exact ⟨(sound.kept kept).1, (sound.kept kept).2.1⟩

/-- A cursor with a name may change it while nobody keeps it. -/
theorem rename {old : SlotName} (name : SlotName) (inside : c < world.cursors.size)
    (named : world.name? c = some old)
    (unkept : ∀ parent other, world.kept? parent other ≠ some c) :
    Sound (world.rename c name) := by
  refine sound.of_alike (alike_rename world c name) ?_ ?_
  · intro d
    by_cases same : d = c
    · rw [same, name?_rename_self world inside, named]
      rfl
    · rw [name?_rename_other world same]
  · intro parent other d kept
    rw [kept?_rename] at kept
    have different : d ≠ c := fun same => unkept parent other (same ▸ kept)
    rw [name?_rename_other world different]
    exact ⟨(sound.kept kept).1, (sound.kept kept).2.1⟩

theorem modifyViews (c : CursorId) (views : Cursor → Views) :
    Sound (world.modifyCursor c (fun cursor => { cursor with views := views cursor })) := by
  refine sound.of_fewer (alike_modifyCursor world c _ fun _ => ⟨rfl, rfl, rfl⟩)
    (field_modifyCursor Cursor.name? world c · fun _ => rfl) fun {parent name _} kept => kept ▸ ?_
  symm
  exact field_modifyCursor (·.children.get? name) world c parent fun _ => rfl

theorem setValue (c : CursorId) (value : Value) : Sound (world.setValue c value) where
  older above := by rw [above?_setValue] at above; exact sound.older above
  named d := by rw [above?_setValue, name?_setValue, sound.named]
  rooted above := by
    rw [above?_setValue] at above
    rw [origin_setValue, origin_setValue]
    exact sound.rooted above
  topmost inside above := by
    rw [above?_setValue] at above
    rw [origin_setValue]
    exact sound.topmost (by simpa [World.setValue] using inside) above
  kept found := by
    rw [kept?_setValue] at found
    rw [above?_setValue, name?_setValue]
    refine ⟨(sound.kept found).1, (sound.kept found).2.1, ?_⟩
    simpa [World.setValue] using (sound.kept found).2.2
  held inside := by
    have before : _ < world.cursors.size := sound.held inside
    simpa [World.setValue] using before

theorem hold (inside : c < world.cursors.size) : Sound (world.hold c) where
  older := sound.older
  named := sound.named
  rooted := sound.rooted
  topmost := sound.topmost
  kept := sound.kept
  held member := by
    rcases List.mem_cons.mp member with rfl | old
    · exact inside
    · exact sound.held old

end Changes

end Sound

/-! ### New cursors -/

section AddChild

variable (world : World) (name : SlotName) (value : Value)

theorem cursor_addChild (d : CursorId) :
    (world.addChild parent name value).2.cursor d =
      if d = world.cursors.size then
        { value, parent? := some parent, name? := some name, root := world.origin parent
          children := .empty, views := .empty }
      else (world.keep parent name world.cursors.size).cursor d := by
  by_cases new : d = world.cursors.size
  · rw [if_pos new]
    simp only [addChild, cursor, origin]
    rw [Array.getElem?_push, if_pos (by rw [size_modifyCursor]; exact new)]
    rfl
  · rw [if_neg new]
    simp only [addChild, cursor]
    rw [Array.getElem?_push, if_neg (by rw [size_modifyCursor]; exact new)]
    rfl

@[simp] theorem size_addChild :
    (world.addChild parent name value).2.cursors.size = world.cursors.size + 1 := by
  simp [addChild]

@[simp] theorem fst_addChild : (world.addChild parent name value).1 = world.cursors.size := rfl

@[simp] theorem store_addChild : (world.addChild parent name value).2.store = world.store := rfl

theorem value_addChild (d : CursorId) :
    (world.addChild parent name value).2.value d =
      if d = world.cursors.size then value else world.value d := by
  rw [World.value, cursor_addChild]
  split
  · rfl
  · exact (alike_keep world parent name _).value d

theorem name?_addChild (d : CursorId) :
    (world.addChild parent name value).2.name? d =
      if d = world.cursors.size then some name else world.name? d := by
  rw [World.name?, cursor_addChild]
  split
  · rfl
  · exact name?_keep world parent d name _

theorem above?_addChild (d : CursorId) :
    (world.addChild parent name value).2.above? d =
      if d = world.cursors.size then some parent else world.above? d := by
  rw [above?, cursor_addChild]
  split
  · rfl
  · exact (alike_keep world parent name _).above d

theorem origin_addChild (d : CursorId) :
    (world.addChild parent name value).2.origin d =
      if d = world.cursors.size then world.origin parent else world.origin d := by
  rw [origin, cursor_addChild]
  split
  · rfl
  · exact (alike_keep world parent name _).origin d

theorem kept?_addChild (inside : parent < world.cursors.size) (d : CursorId) (other : SlotName) :
    (world.addChild parent name value).2.kept? d other =
      if d = parent ∧ other = name then some world.cursors.size else world.kept? d other := by
  rw [kept?, cursor_addChild]
  split
  · rename_i new
    rw [if_neg (fun both => Nat.ne_of_lt inside (both.1.symm.trans new)), new,
      world.kept?_of_size_le (Nat.le_refl _)]
    rfl
  · exact kept?_keep world inside name _ d other

end AddChild

theorem Sound.addChild (sound : Sound world) (inside : parent < world.cursors.size)
    (name : SlotName) (value : Value) : Sound (world.addChild parent name value).2 where
  older {c _} above := by
    rw [above?_addChild] at above
    split at above
    · rename_i new
      cases above
      exact new ▸ inside
    · exact sound.older above
  named c := by
    rw [above?_addChild, name?_addChild]
    split
    · rfl
    · exact sound.named c
  rooted {c grandparent} above := by
    rw [above?_addChild] at above
    rw [origin_addChild, origin_addChild]
    split at above
    · rename_i new
      cases above
      rw [if_pos new, if_neg (Nat.ne_of_lt inside)]
    · rename_i old
      rw [if_neg old, if_neg (Nat.ne_of_lt (sound.parent_lt_size above))]
      exact sound.rooted above
  topmost {c} smaller above := by
    rw [above?_addChild] at above
    rw [origin_addChild]
    split at above
    · cases above
    · rename_i old
      rw [if_neg old]
      rw [size_addChild] at smaller
      exact sound.topmost (Nat.lt_of_le_of_ne (Nat.le_of_lt_succ smaller) old) above
  kept {holder other c} found := by
    rw [kept?_addChild _ _ _ inside] at found
    rw [above?_addChild, name?_addChild, size_addChild]
    split at found
    · rename_i here
      cases found
      rw [if_pos rfl, if_pos rfl, here.1, here.2]
      exact ⟨rfl, rfl, Nat.lt_succ_self _⟩
    · obtain ⟨above, bears, smaller⟩ := sound.kept found
      rw [if_neg (Nat.ne_of_lt smaller), if_neg (Nat.ne_of_lt smaller)]
      exact ⟨above, bears, Nat.lt_succ_of_lt smaller⟩
  held member := by
    rw [size_addChild]
    exact Nat.lt_succ_of_lt (sound.held member)

section AddRoot

variable (world : World) (value : Value)

theorem cursor_addRoot (d : CursorId) :
    (world.addRoot value).2.cursor d =
      if d = world.cursors.size then
        { value, parent? := none, name? := none, root := world.cursors.size
          children := .empty, views := .empty }
      else world.cursor d := by
  simp only [addRoot, cursor, Array.getElem?_push]
  split <;> rfl

@[simp] theorem size_addRoot : (world.addRoot value).2.cursors.size = world.cursors.size + 1 := by
  simp [addRoot]

theorem kept?_addRoot (d : CursorId) (name : SlotName) :
    (world.addRoot value).2.kept? d name = world.kept? d name := by
  rw [kept?, cursor_addRoot]
  split
  · rename_i new
    rw [new, world.kept?_of_size_le (Nat.le_refl _)]
    rfl
  · rfl

end AddRoot

theorem Sound.addRoot (sound : Sound world) (value : Value) : Sound (world.addRoot value).2 where
  older above := by
    rw [above?, cursor_addRoot] at above
    split at above
    · cases above
    · exact sound.older above
  named c := by
    rw [above?, name?, cursor_addRoot]
    split
    · rfl
    · exact sound.named c
  rooted above := by
    rw [above?, cursor_addRoot] at above
    rw [origin, origin, cursor_addRoot, cursor_addRoot]
    split at above
    · cases above
    · rename_i old
      rw [if_neg old, if_neg (Nat.ne_of_lt (sound.parent_lt_size above))]
      exact sound.rooted above
  topmost smaller above := by
    rw [above?, cursor_addRoot] at above
    rw [origin, cursor_addRoot]
    split at above
    · rename_i new
      rw [if_pos new, new]
    · rename_i old
      rw [if_neg old]
      rw [size_addRoot] at smaller
      exact sound.topmost (Nat.lt_of_le_of_ne (Nat.le_of_lt_succ smaller) old) above
  kept found := by
    rw [kept?_addRoot] at found
    obtain ⟨above, bears, smaller⟩ := sound.kept found
    rw [above?, name?, cursor_addRoot, if_neg (Nat.ne_of_lt smaller), size_addRoot]
    exact ⟨above, bears, Nat.lt_succ_of_lt smaller⟩
  held member := by
    rw [size_addRoot]
    exact Nat.lt_succ_of_lt (sound.held member)

/-! ### Asking for a slot -/

/-- Asking for a slot either finds the kept child, or adds one for what the slot holds. -/
theorem child_cases (world : World) (c : CursorId) (name : SlotName) :
    (∃ kept, world.kept? c (world.store.normalName (world.value c) name) = some kept ∧
      (world.value kept).same (world.store.slot (world.value c)
        (world.store.normalName (world.value c) name)) = true ∧
      world.child c name = (kept, world)) ∨
    ((∀ kept, world.kept? c (world.store.normalName (world.value c) name) = some kept →
      (world.value kept).same (world.store.slot (world.value c)
        (world.store.normalName (world.value c) name)) = false) ∧
      world.child c name = world.addChild c (world.store.normalName (world.value c) name)
        (world.store.slot (world.value c) (world.store.normalName (world.value c) name))) := by
  unfold World.child
  cases found : world.kept? c (world.store.normalName (world.value c) name) with
  | none =>
    refine Or.inr ⟨nofun, ?_⟩
    rw [kept?] at found
    simp only [found]
  | some kept =>
    rw [kept?] at found
    simp only [found]
    cases same : (world.value kept).same (world.store.slot (world.value c)
        (world.store.normalName (world.value c) name)) with
    | true => exact Or.inl ⟨kept, rfl, same, if_pos rfl⟩
    | false =>
      refine Or.inr ⟨?_, if_neg Bool.false_ne_true⟩
      intro other equal
      cases equal
      exact same

/-- A child that is kept under a normal name and agrees with its slot is the one that is found. -/
theorem child_of_kept {child : CursorId} (kept : world.kept? c name = some child)
    (normal : world.store.normalName (world.value c) name = name)
    (agrees : (world.store.slot (world.value c) name).same (world.value child) = true) :
    world.child c name = (child, world) := by
  rcases world.child_cases c name with ⟨found, foundKept, _, result⟩ | ⟨stale, _⟩
  · rw [normal, kept] at foundKept
    cases foundKept
    exact result
  · rw [normal] at stale
    have fresh := stale child kept
    rw [Value.same_comm, agrees] at fresh
    cases fresh

theorem Sound.child (sound : Sound world) (inside : c < world.cursors.size) (name : SlotName) :
    Sound (world.child c name).2 := by
  rcases world.child_cases c name with ⟨_, _, _, result⟩ | ⟨_, result⟩
  · rw [result]
    exact sound
  · rw [result]
    exact sound.addChild inside _ _

end World

end CodeTree
