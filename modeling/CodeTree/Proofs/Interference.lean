/-
The structure of the kept cursors survives anything. Operations go to any cursor, also to one
that was removed or that nobody keeps any more; roots are added, handles are taken and dropped,
and the composites are written to behind the cursors' back. As long as no operation ends with a
fault, every kept child bears the name it is kept under and stands below its keeper, it is kept
once, and the way down never comes back to where it was.
-/

import CodeTree.Proofs.Operations

namespace CodeTree

namespace World

/-- What happens to the cursors without any of them being asked. -/
inductive Disturbs (world : World) : World → Prop where
  | root (value : Value) : Disturbs world (world.addRoot value).2
  | handles (held : List CursorId) :
      (∀ c ∈ held, c < world.cursors.size) → Disturbs world { world with held }
  | written (store : Store) : Disturbs world { world with store }

/-- The worlds that can arise under interference. -/
inductive Interfered : World → Prop where
  | bare (store : Store) (scopes : Array Scope) : Interfered ⟨store, #[], scopes, []⟩
  | asked {world after : World} (c : CursorId) (operation : Operation) :
      Interfered world → c < world.cursors.size → operation.Ends c world after → Interfered after
  | disturbed {world after : World} : Interfered world → Disturbs world after → Interfered after

theorem Disturbs.settled {spared : CursorId → Prop} {world after : World}
    (disturbs : Disturbs world after) (sound : Sound world) : Settled spared world after := by
  cases disturbs with
  | root value => exact ⟨sound.addRoot value, fun _ forgotten => forgotten.addRoot value⟩
  | handles held inside =>
    exact ⟨⟨sound.older, sound.named, sound.rooted, sound.topmost, sound.kept, inside _⟩,
      fun _ forgotten => forgotten.withHeld held⟩
  | written store => exact ⟨sound.withStore store, fun _ forgotten => forgotten.withStore store⟩

theorem Interfered.sound {world : World} (run : Interfered world) : Sound world := by
  induction run with
  | bare store scopes => exact sound_bare store scopes
  | asked c operation _ inside ends sound => exact (ends.settled sound inside).sound
  | disturbed _ disturbs sound =>
    exact (@Disturbs.settled (fun _ => True) _ _ disturbs sound).sound

/-- The structure of the kept cursors under interference. A kept child bears its name and has its
keeper for a parent; only one path leads from a cursor to another; asking for a slot gives a
cursor of the slot's name that stands for what the slot holds; an operation never finds a child
under a name it does not bear, and moves every child to an index while there is room; and
climbing from a cursor leads to ever older ones, so that it ends. -/
theorem structure_survives_interference {world : World} (run : Interfered world) :
    (∀ {parent name c}, world.kept? parent name = some c →
      world.name? c = some name ∧ world.above? c = some parent ∧
      (world.isAlive parent = true → world.parent? c = some parent)) ∧
    (∀ {parent other name otherName c}, world.kept? parent name = some c →
      world.kept? other otherName = some c → parent = other ∧ name = otherName) ∧
    (∀ {start path other c}, world.follow? start path = some c →
      world.follow? start other = some c → path = other) ∧
    (∀ {c}, c < world.cursors.size → ∀ (operation : Operation) (after : World),
      operation.run c world ≠ .error (.fault .keptUnderOtherName) after ∧
      (world.Roomy operation.inserted.length →
        operation.run c world ≠ .error (.fault .indexRange) after)) ∧
    (∀ {c}, c < world.cursors.size → ∀ name : SlotName, ∃ d after,
      world.child c name = (d, after) ∧
      after.name? d = some (world.store.normalName (world.value c) name) ∧
      ((world.store.slot (world.value c) name).isNaN = false →
        (after.value d).same (world.store.slot (world.value c) name) = true)) ∧
    ∀ c, (∀ {parent}, world.parent? c = some parent → parent < c) ∧
      world.chain c = c :: (world.parent? c).elim [] world.chain := by
  have sound := run.sound
  refine ⟨?_, ?_, ?_, ?_, ?_, ?_⟩
  · intro parent name c kept
    obtain ⟨above, bears, _⟩ := sound.kept kept
    exact ⟨bears, above, parent?_of_above? above⟩
  · intro parent other name otherName c first second
    exact sound.kept_unique first second
  · intro start path other c first second
    exact sound.follow_unique first second
  · intro c inside operation after
    have settles := operation.settles sound inside
    constructor
    · intro result
      rw [result] at settles
      exact settles.1 rfl
    · intro roomy result
      rw [result] at settles
      exact settles.2 rfl roomy
  · intro c inside name
    obtain ⟨kept, stands⟩ := child_spec inside name
    refine ⟨_, _, rfl, ((sound.child inside name).kept kept).2.1, ?_⟩
    rwa [Store.slot_normalName] at stands
  · intro c
    exact ⟨fun living => sound.older (above?_of_parent? living), sound.chain_eq c⟩

/-- A cursor whose element has been moved behind its back, and to whose new place another cursor
was kept, is kept there instead once it has been found. -/
theorem structure_survives_swapped_elements :
    ∃ world, Interfered world ∧ world.kept? 0 (.index 1) = some 1 ∧
      world.name? 1 = some (.index 1) := by
  have start := (Interfered.bare ⟨#[.array [.bool true, .bool false]]⟩ #[]).disturbed
    (.root (.composite 0))
  have asked : Interfered ⟨⟨#[.array [.bool true, .bool false]]⟩, #[
        ⟨.composite 0, none, none, 0, ⟨[(.index 0, 1), (.index 1, 2)], by decide⟩, .empty⟩,
        ⟨.bool true, some 0, some (.index 0), 0, .empty, .empty⟩,
        ⟨.bool false, some 0, some (.index 1), 0, .empty, .empty⟩], #[], []⟩ :=
    .asked 0 (.get (.index 1))
      (.asked 0 (.get (.index 0)) start (by decide) (.inl ⟨.cursor 1, rfl⟩))
      (by decide) (.inl ⟨.cursor 2, rfl⟩)
  have swapped := (asked.disturbed (.handles [0] (by decide))).disturbed
    (.written ⟨#[.array [.bool false, .bool true]]⟩)
  have found : Interfered ⟨⟨#[.array [.bool false, .null]]⟩, #[
        ⟨.composite 0, none, none, 0, ⟨[(.index 1, 1)], by decide⟩, .empty⟩,
        ⟨.null, some 0, some (.index 1), 0, .empty, .empty⟩,
        ⟨.bool false, some 0, some (.index 1), 0, .empty, .empty⟩], #[], [0]⟩ := by
    refine .asked 1 (.replace [.null]) swapped (by decide) (.inl ⟨.cursors [1], ?_⟩)
    rw [Operation.run, Action.run_map,
      Action.replace_of_some (parent?_of_above? rfl (by simp [isAlive, isHeld]))]
    rfl
  refine ⟨_, found, rfl, ?_⟩
  exact ((structure_survives_interference found).1 (rfl : kept? _ 0 (.index 1) = some 1)).1

end World

end CodeTree
