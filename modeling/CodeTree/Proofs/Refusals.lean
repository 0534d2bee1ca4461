/-
What a refused replacement leaves behind. A replacement first brings its cursor into step with
the parent and only then looks whether the values fit the slot. Coming into step writes in one
case alone: below an object whose key shows something else by now, the value that the cursor
remembers is put back. Two or more values fit no key, so there the replacement is refused after
it has written; everywhere else a refusal leaves the store as it was.
-/

import CodeTree.Proofs.Removed

namespace CodeTree

variable {world : World} {c parent : CursorId} {key : String}

namespace World

theorem estranged_withoutViews :
    (world.withoutViews c).Estranged c parent key ↔ world.Estranged c parent key := by
  have alike := alike_withoutViews world c
  constructor
  · rintro ⟨named, object, differs, proper⟩
    rw [name?_withoutViews] at named
    simp only [alike.store, alike.value] at object differs proper
    exact ⟨named, object, differs, proper⟩
  · rintro ⟨named, object, differs, proper⟩
    refine ⟨(name?_withoutViews world c c).trans named, ?_, ?_, ?_⟩ <;>
      simpa only [alike.store, alike.value]

end World

namespace Action

open World

variable {values : List Value} {cause : EditError} {after : World}

/-- Once a cursor is in step with its parent, a refusal changes nothing. -/
theorem replaceInStep_refused {name : SlotName} (inStep : InStep world c parent name)
    (refused : replaceInStep c parent values world = .error (.error cause) after) :
    after = world := by
  cases contents : world.store.contents? (world.value parent) with
  | none =>
    rw [replaceInStep_plain inStep.named contents] at refused
    cases refused
    rfl
  | some composite =>
    cases composite with
    | array items =>
      rw [replaceInStep_array inStep.named contents] at refused
      cases name with
      | key characters =>
        rw [replaceElement_key] at refused
        cases refused
        rfl
      | index position =>
        rcases Nat.lt_or_ge position items.length with inside | beyond
        · exact absurd refused ((replaceElement_written inStep contents inside values).2.2 _ _)
        · rw [replaceElement_removed beyond] at refused
          cases refused
    | object members =>
      rw [replaceInStep_object inStep.named contents] at refused
      exact (replaceMember_refused refused).2

section Mend

variable (sound : Sound world) (above : world.above? c = some parent)

include sound above

/-- A refusal leaves the cursors' values and, unless the cursor is estranged and given several
values, the store. -/
theorem mend_refused (refused : mend c parent values world = .error (.error cause) after) :
    (∀ d, after.value d = world.value d) ∧
      (after.store = world.store ∨ 2 ≤ values.length ∧ ∃ key, world.Estranged c parent key) := by
  rcases repair_cases sound above with ⟨mid, _, ended, repaired⟩ | ⟨_, _, broken, _⟩
  · rcases repaired.store with alike | ⟨key, estranged, rfl⟩
    · rw [mend_of_ok ended] at refused
      cases replaceInStep_refused repaired.toInStep refused
      exact ⟨alike.value, .inl alike.store⟩
    · rw [mend_estranged sound above values estranged] at refused
      obtain ⟨several, rfl⟩ := replaceMember_refused refused
      exact ⟨value_putBack world c parent _, .inr ⟨several, key, estranged⟩⟩
  · rw [mend_of_error broken] at refused
    cases refused

end Mend

end Action

namespace World

/-- When a refused replacement has written. A refusal leaves every cursor its value, and the store
as it was, unless several values were given to a cursor that its object has been estranged from.
Then the replacement is always refused for the number of its values, after the value that the
cursor remembers has been put back under its key. -/
theorem refused_replace_puts_back {world : World} (run : Interfered world) (c : CursorId)
    (values : List Value) :
    (∀ {cause after}, Action.replace c values world = .error (.error cause) after →
      (∀ d, after.value d = world.value d) ∧
      (after.store = world.store ∨ 2 ≤ values.length ∧
        ∃ parent key, world.parent? c = some parent ∧ world.Estranged c parent key)) ∧
    ∀ {parent key}, world.parent? c = some parent → world.Estranged c parent key →
      2 ≤ values.length → ∃ after,
        Action.replace c values world =
          .error (.error (.tooManyForKey key values.length)) after ∧
        after.store = world.store.setMember (world.value parent) key (world.value c) ∧
        after.store ≠ world.store := by
  have sound := run.sound
  have alike := alike_withoutViews world c
  constructor
  · intro cause after refused
    cases living : world.parent? c with
    | none =>
      rw [Action.replace_of_none living] at refused
      cases refused
      exact ⟨fun _ => rfl, .inl rfl⟩
    | some parent =>
      rw [Action.replace_eq_mend living] at refused
      obtain ⟨values, store⟩ := Action.mend_refused (sound.withoutViews c)
        ((alike.above c).trans (above?_of_parent? living)) refused
      refine ⟨fun d => (values d).trans (alike.value d), ?_⟩
      rcases store with store | ⟨several, key, estranged⟩
      · exact .inl (store.trans alike.store)
      · exact .inr ⟨several, parent, key, rfl, estranged_withoutViews.mp estranged⟩
  · intro parent key living estranged several
    obtain ⟨first, second, rest, rfl⟩ : ∃ first second rest, values = first :: second :: rest := by
      match values, several with
      | first :: second :: rest, _ => exact ⟨first, second, rest, rfl⟩
    have store := store_putBack (world.withoutViews c) c parent key
    rw [alike.store, alike.value, alike.value] at store
    refine ⟨_, ?_, store, store ▸ estranged.store_ne⟩
    rw [Action.replace_eq_mend living, Action.mend_estranged (sound.withoutViews c)
      ((alike.above c).trans (above?_of_parent? living)) _ (estranged_withoutViews.mpr estranged),
      Action.replaceMember_many]
    rfl

/-- A member is removed through its cursor, and written again through another. The first cursor
remembers null; given two values it is refused, and has written null over the member. -/
theorem refused_replace_overwrites_member :
    ∃ world after, Interfered world ∧
      world.store.contents? (.composite 0) = some (.object (.ofList [("a", .bool false)])) ∧
      Action.replace 1 [.null, .null] world = .error (.error (.tooManyForKey "a" 2)) after ∧
      after.store = world.store.setMember (.composite 0) "a" .null ∧
      after.store ≠ world.store := by
  have start := (Interfered.bare ⟨#[.object (.ofList [("a", .bool true)])]⟩ #[]).disturbed
    (.root (.composite 0))
  have asked : Interfered ⟨⟨#[.object (.ofList [("a", .bool true)])]⟩, #[
        ⟨.composite 0, none, none, 0, ⟨[(.key "a", 1)], by decide⟩, .empty⟩,
        ⟨.bool true, some 0, some (.key "a"), 0, .empty, .empty⟩], #[], [0]⟩ :=
    (Interfered.asked 0 (.get (.key "a")) start (by decide)
      (.inl ⟨.cursor 1, rfl⟩)).disturbed (.handles [0] (by decide))
  have removed : Interfered ⟨⟨#[.object .empty]⟩, #[
        ⟨.composite 0, none, none, 0, .empty, .empty⟩,
        ⟨.null, some 0, some (.key "a"), 0, .empty, .empty⟩], #[], [0]⟩ := by
    refine .asked 1 .remove asked (by decide) (.inl ⟨.done, ?_⟩)
    rw [Operation.run, Action.run_map, Action.remove_eq, Action.run_map,
      Action.replace_of_some (parent?_of_above? rfl (by simp [isAlive, isHeld]))]
    rfl
  have again : Interfered ⟨⟨#[.object .empty]⟩, #[
        ⟨.composite 0, none, none, 0, ⟨[(.key "a", 2)], by decide⟩, .empty⟩,
        ⟨.null, some 0, some (.key "a"), 0, .empty, .empty⟩,
        ⟨.null, some 0, some (.key "a"), 0, .empty, .empty⟩], #[], [0]⟩ :=
    .asked 0 (.get (.key "a")) removed (by decide) (.inl ⟨.cursor 2, rfl⟩)
  have written : Interfered ⟨⟨#[.object (.ofList [("a", .bool false)])]⟩, #[
        ⟨.composite 0, none, none, 0, ⟨[(.key "a", 2)], by decide⟩, .empty⟩,
        ⟨.null, some 0, some (.key "a"), 0, .empty, .empty⟩,
        ⟨.bool false, some 0, some (.key "a"), 0, .empty, .empty⟩], #[], [0]⟩ := by
    refine .asked 2 (.replaceWith (.bool false)) again (by decide) (.inl ⟨.cursor 2, ?_⟩)
    rw [Operation.run, Action.run_map, Action.replaceWith_eq, Action.run_map,
      Action.replace_of_some (parent?_of_above? rfl (by simp [isAlive, isHeld]))]
    rfl
  obtain ⟨after, refused, store, different⟩ :=
    (refused_replace_puts_back written 1 [.null, .null]).2
      (parent?_of_above? rfl (by simp [isAlive, isHeld]))
      (⟨rfl, ⟨_, rfl⟩, rfl, rfl⟩ : Estranged _ 1 0 "a") (by decide)
  exact ⟨_, after, written, rfl, refused, store, different⟩

end World

end CodeTree
