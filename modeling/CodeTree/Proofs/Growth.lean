/-
Asking for slots that nobody has asked for. Each gives a new cursor, kept under the name of its
slot and standing for what the slot holds; the cursors that were there notice nothing.
-/

import CodeTree.Proofs.Forgotten

namespace CodeTree

namespace World

/-- A world with new children for some slots of one cursor. -/
structure Grown (parent : CursorId) (names : List SlotName) (before after : World) : Prop where
  store : after.store = before.store
  scopes : after.scopes = before.scopes
  held : after.held = before.held
  size : after.cursors.size = before.cursors.size + names.length
  value : ∀ {d}, d < before.cursors.size → after.value d = before.value d
  name : ∀ {d}, d < before.cursors.size → after.name? d = before.name? d
  above : ∀ {d}, d < before.cursors.size → after.above? d = before.above? d
  origin : ∀ {d}, d < before.cursors.size → after.origin d = before.origin d
  kept : ∀ {d name}, (d = parent → name ∉ names) → after.kept? d name = before.kept? d name
  keptNew : ∀ {position name}, names[position]? = some name →
    after.kept? parent name = some (before.cursors.size + position)
  valueNew : ∀ {position name}, names[position]? = some name →
    after.value (before.cursors.size + position) = before.store.slot (before.value parent) name
  nameNew : ∀ {position name}, names[position]? = some name →
    after.name? (before.cursors.size + position) = some name
  aboveNew : ∀ {position name}, names[position]? = some name →
    after.above? (before.cursors.size + position) = some parent
  originNew : ∀ {position name}, names[position]? = some name →
    after.origin (before.cursors.size + position) = before.origin parent

theorem Grown.refl (parent : CursorId) (world : World) : Grown parent [] world world := by
  refine ⟨rfl, rfl, rfl, rfl, fun _ => rfl, fun _ => rfl, fun _ => rfl, fun _ => rfl,
    fun _ => rfl, ?_, ?_, ?_, ?_, ?_⟩ <;> simp

/-- One more slot in front. -/
theorem Grown.cons {world after : World} {parent : CursorId} {name : SlotName}
    {names : List SlotName} {value : Value} (inside : parent < world.cursors.size)
    (fresh : name ∉ names) (holds : value = world.store.slot (world.value parent) name)
    (grown : Grown parent names (world.addChild parent name value).2 after) :
    Grown parent (name :: names) world after := by
  have before : ∀ {d}, d < world.cursors.size →
      d < (world.addChild parent name value).2.cursors.size ∧ d ≠ world.cursors.size := by
    intro d smaller
    rw [size_addChild]
    exact ⟨Nat.lt_succ_of_lt smaller, Nat.ne_of_lt smaller⟩
  have newest : world.cursors.size < (world.addChild parent name value).2.cursors.size := by
    rw [size_addChild]
    exact Nat.lt_succ_self _
  have sizes (position : Nat) : world.cursors.size + (position + 1) =
      (world.addChild parent name value).2.cursors.size + position := by
    rw [size_addChild]
    omega
  refine ⟨grown.store, grown.scopes, grown.held, ?_, ?_, ?_, ?_, ?_, ?_, ?_, ?_, ?_, ?_, ?_⟩
  · rw [grown.size, size_addChild, List.length_cons]
    omega
  · intro d smaller
    rw [grown.value (before smaller).1, value_addChild, if_neg (before smaller).2]
  · intro d smaller
    rw [grown.name (before smaller).1, name?_addChild, if_neg (before smaller).2]
  · intro d smaller
    rw [grown.above (before smaller).1, above?_addChild, if_neg (before smaller).2]
  · intro d smaller
    rw [grown.origin (before smaller).1, origin_addChild, if_neg (before smaller).2]
  · intro d other apart
    rw [grown.kept (fun same inRest => apart same (List.mem_cons_of_mem _ inRest)),
      kept?_addChild _ _ _ inside, if_neg]
    rintro ⟨same, rfl⟩
    exact apart same List.mem_cons_self
  · intro position other there
    cases position with
    | zero =>
      cases there
      rw [grown.kept (fun _ => fresh), kept?_addChild _ _ _ inside, if_pos ⟨rfl, rfl⟩]
      rfl
    | succ position =>
      rw [sizes]
      exact grown.keptNew there
  · intro position other there
    cases position with
    | zero =>
      cases there
      rw [Nat.add_zero, grown.value newest, value_addChild, if_pos rfl, holds]
    | succ position =>
      rw [sizes, grown.valueNew there, store_addChild, value_addChild,
        if_neg (Nat.ne_of_lt inside)]
  · intro position other there
    cases position with
    | zero =>
      cases there
      rw [Nat.add_zero, grown.name newest, name?_addChild, if_pos rfl]
    | succ position =>
      rw [sizes]
      exact grown.nameNew there
  · intro position other there
    cases position with
    | zero =>
      cases there
      rw [Nat.add_zero, grown.above newest, above?_addChild, if_pos rfl]
    | succ position =>
      rw [sizes]
      exact grown.aboveNew there
  · intro position other there
    cases position with
    | zero =>
      cases there
      rw [Nat.add_zero, grown.origin newest, origin_addChild, if_pos rfl]
    | succ position =>
      rw [sizes, grown.originNew there, origin_addChild, if_neg (Nat.ne_of_lt inside)]

/-- Asking for slots that have no kept child gives new ones, numbered in order. -/
theorem childrenAt_fresh {world : World} {parent : CursorId} {names : List SlotName}
    (inside : parent < world.cursors.size) (distinct : names.Nodup)
    (normal : ∀ name ∈ names, world.store.normalName (world.value parent) name = name)
    (unkept : ∀ name ∈ names, world.kept? parent name = none) :
    (world.childrenAt parent names).1 = List.range' world.cursors.size names.length ∧
      Grown parent names world (world.childrenAt parent names).2 := by
  induction names generalizing world with
  | nil => exact ⟨rfl, Grown.refl parent world⟩
  | cons name rest ih =>
    obtain ⟨freshName, distinctRest⟩ := List.nodup_cons.mp distinct
    have normalHere := normal name List.mem_cons_self
    have asked : world.child parent name =
        world.addChild parent name (world.store.slot (world.value parent) name) := by
      rcases world.child_cases parent name with ⟨kept, keptThere, _, _⟩ | ⟨_, result⟩
      · rw [normalHere, unkept name List.mem_cons_self] at keptThere
        cases keptThere
      · rwa [normalHere] at result
    have sameValue : (world.addChild parent name
        (world.store.slot (world.value parent) name)).2.value parent = world.value parent := by
      rw [value_addChild, if_neg (Nat.ne_of_lt inside)]
    have later := @ih (world.addChild parent name (world.store.slot (world.value parent) name)).2
      (by rw [size_addChild]; exact Nat.lt_succ_of_lt inside) distinctRest
      (fun other member => by
        rw [sameValue, store_addChild]
        exact normal other (List.mem_cons_of_mem _ member))
      (fun other member => by
        rw [kept?_addChild _ _ _ inside, if_neg]
        · exact unkept other (List.mem_cons_of_mem _ member)
        · rintro ⟨_, rfl⟩
          exact freshName member)
    constructor
    · rw [childrenAt, asked, List.length_cons, List.range'_succ]
      rw [size_addChild] at later
      exact congrArg _ later.1
    · rw [childrenAt, asked]
      exact Grown.cons inside freshName rfl later.2

/-- The new children are new cursors, and so nobody is brought back. -/
theorem Grown.leaves {before after : World} {parent c : CursorId} {names : List SlotName}
    (grown : Grown parent names before after) (forgotten : before.Forgotten c) :
    Leaves c before after where
  forgotten :=
    { inside := by
        rw [grown.size]
        exact Nat.lt_add_right _ forgotten.inside
      unkept := by
        intro holder name kept
        by_cases new : holder = parent ∧ name ∈ names
        · obtain ⟨rfl, member⟩ := new
          obtain ⟨position, place⟩ := List.mem_iff_getElem?.mp member
          rw [grown.keptNew place] at kept
          have same := Option.some.inj kept
          exact Nat.not_lt_of_le (Nat.le_add_right _ _) (same ▸ forgotten.inside)
        · rw [grown.kept fun same member => new ⟨same, member⟩] at kept
          exact forgotten.unkept holder name kept }
  value := grown.value forgotten.inside
  name := grown.name forgotten.inside
  above := grown.above forgotten.inside

/-- New children are in order where the old cursors were. -/
theorem Grown.sound {before after : World} {parent : CursorId} {names : List SlotName}
    (grown : Grown parent names before after) (sound : Sound before)
    (inside : parent < before.cursors.size) : Sound after := by
  -- Every cursor is an old one or one of the new children.
  have split {d : CursorId} (smaller : d < after.cursors.size) : d < before.cursors.size ∨
      ∃ position name, names[position]? = some name ∧ d = before.cursors.size + position := by
    rcases Nat.lt_or_ge d before.cursors.size with old | new
    · exact Or.inl old
    · rw [grown.size] at smaller
      have early : d - before.cursors.size < names.length := Nat.sub_lt_left_of_lt_add new smaller
      exact Or.inr ⟨d - before.cursors.size, _, List.getElem?_eq_getElem early,
        (Nat.add_sub_cancel' new).symm⟩
  refine ⟨?_, ?_, ?_, ?_, ?_, ?_⟩
  · intro c above found
    rcases split (lt_size_of_above? found) with old | ⟨position, name, there, rfl⟩
    · rw [grown.above old] at found
      exact sound.older found
    · rw [grown.aboveNew there] at found
      cases found
      exact Nat.lt_of_lt_of_le inside (Nat.le_add_right _ _)
  · intro c
    rcases Nat.lt_or_ge c after.cursors.size with smaller | beyond
    · rcases split smaller with old | ⟨position, name, there, rfl⟩
      · rw [grown.above old, grown.name old, sound.named]
      · rw [grown.aboveNew there, grown.nameNew there]
        rfl
    · rw [name?_of_size_le beyond]
      cases found : after.above? c with
      | none => rfl
      | some above => exact absurd (lt_size_of_above? found) (Nat.not_lt_of_le beyond)
  · intro c above found
    rcases split (lt_size_of_above? found) with old | ⟨position, name, there, rfl⟩
    · rw [grown.above old] at found
      rw [grown.origin old, grown.origin (Nat.lt_trans (sound.older found) old)]
      exact sound.rooted found
    · rw [grown.aboveNew there] at found
      cases found
      rw [grown.originNew there, grown.origin inside]
  · intro c smaller top
    rcases split smaller with old | ⟨position, name, there, rfl⟩
    · rw [grown.above old] at top
      rw [grown.origin old]
      exact sound.topmost old top
    · rw [grown.aboveNew there] at top
      cases top
  · intro holder name c kept
    rw [grown.size]
    by_cases new : holder = parent ∧ name ∈ names
    · obtain ⟨rfl, member⟩ := new
      obtain ⟨position, there⟩ := List.mem_iff_getElem?.mp member
      rw [grown.keptNew there] at kept
      cases kept
      refine ⟨grown.aboveNew there, grown.nameNew there, ?_⟩
      exact Nat.add_lt_add_left (List.getElem?_eq_some_iff.mp there).1 _
    · rw [grown.kept (fun same member => new ⟨same, member⟩)] at kept
      obtain ⟨above, bears, old⟩ := sound.kept kept
      rw [grown.above old, grown.name old]
      exact ⟨above, bears, Nat.lt_of_lt_of_le old (Nat.le_add_right _ _)⟩
  · intro c member
    rw [grown.held] at member
    rw [grown.size]
    exact Nat.lt_of_lt_of_le (sound.held member) (Nat.le_add_right _ _)

end World

end CodeTree
