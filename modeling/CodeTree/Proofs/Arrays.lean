/-
How the edits of an array end. Each of them reads the array, writes its new elements, and then
rearranges the kept children of its cursor. An edit is refused where there is no array, and then
nothing has changed. Otherwise it gives its answer, or a child would have to move to a number
that is no index.
-/

import CodeTree.Proofs.Moving

namespace CodeTree

namespace World

/-- The world after the elements of the array at a cursor have been written. -/
def writeItems (world : World) (c : CursorId) (items : List Value) : World :=
  { world with store := world.store.modifyItems (world.value c) (fun _ => items) }

theorem Sound.writeItems {world : World} (sound : Sound world) (c : CursorId)
    (items : List Value) : Sound (world.writeItems c items) :=
  sound.withStore _

/-- How an edit ends whose children move by an offset: with an answer and the children
rearranged, or with a child that would have to move beyond the last index. -/
def EndsMoved {α : Type} (outcome : EStateM.Result (Halt EditError) World α) (answer : α)
    (move : SlotName → Option SlotName) (offset : Int) (parent : CursorId) (written : World) :
    Prop :=
  (∃ after, outcome = .ok answer after ∧ Rearranged move parent written after) ∨
  ∃ after position d, outcome = .error (.fault .indexRange) after ∧
    after.store = written.store ∧ written.kept? parent (.index position) = some d ∧
    (indexBound : Int) ≤ position + offset

end World

namespace Action

open World

variable {world : World} {c : CursorId}

variable {items : List Value}

/-- Moving the elements ends an edit. -/
theorem endsMoved_moveElements {α : Type} {start : Nat} {offset : Int} (answer : α)
    (sound : Sound world) (inside : c < world.cursors.size) (room : Room world c start offset) :
    EndsMoved ((moveElements c start offset >>= fun _ => pure answer) world) answer
      (SlotName.shifted start offset) offset c world := by
  rcases run_moveElements sound inside room with
    ⟨after, result, rearranged⟩ | ⟨after, result, store, _, position, d, _, kept, beyond⟩
  · exact Or.inl ⟨after, by rw [run_bind, result]; rfl, rearranged⟩
  · exact Or.inr ⟨after, position, d, by rw [run_bind, result], store, kept, beyond⟩

/-! ### Edits of an array -/

theorem shift_nil (array : world.store.items? (world.value c) = some []) :
    shift c world = .ok none (world.forget c .length) := by
  simp [shift, run_arrayAt, array]

theorem shift_cons (sound : Sound world) (inside : c < world.cursors.size) {first : Value}
    {rest : List Value} (array : world.store.items? (world.value c) = some (first :: rest)) :
    EndsMoved (shift c world) (some first)
      (SlotName.without (.index 0) (SlotName.shifted 1 (-1))) (-1) c (world.writeItems c rest) := by
  have unrolled : shift c world = (moveElements c 1 (-1) >>= fun _ => pure (some first))
      ((world.writeItems c rest).forget c (.index 0)) := by
    simp [shift, run_arrayAt, array, writeItems]
  have grown : c < ((world.writeItems c rest).forget c (.index 0)).cursors.size := by
    rw [(alike_forget _ _ _).size]
    exact inside
  have free : ((world.writeItems c rest).forget c (.index 0)).kept? c (.index 0) = none := by
    rw [kept?_forget, if_pos ⟨rfl, rfl⟩]
  rw [unrolled]
  rcases endsMoved_moveElements (some first) ((sound.writeItems c rest).forget c (.index 0)) grown
      (Or.inr ⟨rfl, Nat.one_pos, free⟩) with
    ⟨after, result, rearranged⟩ | ⟨after, position, d, result, store, kept, beyond⟩
  · exact Or.inl ⟨after, result, rearranged.after_forget⟩
  · exact Or.inr ⟨after, position, d, result, store, kept?_of_forget kept, beyond⟩

theorem unshift_some (sound : Sound world) (inside : c < world.cursors.size)
    (array : world.store.items? (world.value c) = some items) (values : List Value) :
    EndsMoved (unshift c values world) (values.length + items.length)
      (SlotName.shifted 0 values.length) values.length c
      (world.writeItems c (values ++ items)) := by
  have unrolled : unshift c values world =
      (moveElements c 0 values.length >>= fun _ => pure (values.length + items.length))
        (world.writeItems c (values ++ items)) := by
    simp [unshift, run_arrayAt, array, writeItems]
  rw [unrolled]
  exact endsMoved_moveElements _ (sound.writeItems c _) inside (Or.inl (Int.natCast_nonneg _))

theorem push_some (sound : Sound world) (array : world.store.items? (world.value c) = some items)
    (values : List Value) :
    ∃ after, push c values world = .ok (items.length + values.length) after ∧
      Rearranged (SlotName.without .length some) c (world.writeItems c (items ++ values))
        after := by
  refine ⟨(world.writeItems c (items ++ values)).forget c .length, ?_, ?_⟩
  · simp [push, run_arrayAt, array, writeItems]
  · exact (((sound.writeItems c _).forget c .length).rearranged_refl c).after_forget

/-- Where the slots go when the last element is removed. -/
def popMove (items : List Value) : SlotName → Option SlotName :=
  if items = [] then SlotName.without .length some
  else SlotName.without (.index (items.length - 1)) (SlotName.without .length some)

theorem pop_some (sound : Sound world) (array : world.store.items? (world.value c) = some items) :
    ∃ after, pop c world = .ok items.getLast? after ∧
      Rearranged (popMove items) c (world.writeItems c items.dropLast) after := by
  have written := sound.writeItems c items.dropLast
  by_cases empty : items = []
  · refine ⟨(world.writeItems c items.dropLast).forget c .length, ?_, ?_⟩
    · simp [pop, run_arrayAt, array, writeItems, empty]
    · rw [popMove, if_pos empty]
      exact ((written.forget c .length).rearranged_refl c).after_forget
  · refine ⟨((world.writeItems c items.dropLast).forget c (.index (items.length - 1))).forget c
      .length, ?_, ?_⟩
    · simp [pop, run_arrayAt, array, writeItems, empty]
    · rw [popMove, if_neg empty]
      exact ((((written.forget c _).forget c .length).rearranged_refl c).after_forget).after_forget

theorem insertAt_nil (array : world.store.items? (world.value c) = some items) (index : Nat) :
    insertAt c index [] world = .ok ⟨⟩ world := by
  simp [insertAt, run_arrayAt, array]

theorem insertAt_some (sound : Sound world) (inside : c < world.cursors.size)
    (array : world.store.items? (world.value c) = some items) (index : Nat) {values : List Value}
    (nonempty : values ≠ []) :
    EndsMoved (insertAt c index values world) ⟨⟩
      (SlotName.shifted (min index items.length) values.length) values.length c
      (world.writeItems c (items.take (min index items.length) ++ values ++
        items.drop (min index items.length))) := by
  have unrolled : insertAt c index values world =
      (moveElements c (min index items.length) values.length >>= fun _ => pure ⟨⟩)
        (world.writeItems c (items.take (min index items.length) ++ values ++
          items.drop (min index items.length))) := by
    have filled : values.isEmpty = false := by
      cases values with
      | nil => exact absurd rfl nonempty
      | cons => rfl
    simp only [insertAt, run_bind, run_arrayAt, array, filled, Bool.not_false, if_true,
      run_setItems, writeItems]
    generalize moveElements _ _ _ _ = outcome
    cases outcome <;> rfl
  rw [unrolled]
  exact endsMoved_moveElements _ (sound.writeItems c _) inside (Or.inl (Int.natCast_nonneg _))

/-! ### Edits beside an element -/

/-- The place of an element is found by looking only. -/
theorem run_placeInArray (world : World) (c : CursorId) :
    placeInArray c world =
      match world.parent? c with
      | none => .error (.error .noParent) world
      | some parent =>
        match (world.name? c).bind SlotName.index? with
        | none => .error (.error (.notAnElement (world.shownName c))) world
        | some index => .ok (parent, index) world := by
  simp only [placeInArray, run_bind, run_get]
  cases world.parent? c with
  | none => rfl
  | some parent => cases (world.name? c).bind SlotName.index? <;> rfl

theorem placeInArray_cases (world : World) (c : CursorId) :
    (∃ cause, placeInArray c world = .error (.error cause) world) ∨
    ∃ parent index, placeInArray c world = .ok (parent, index) world ∧
      world.parent? c = some parent := by
  rw [run_placeInArray]
  cases world.parent? c with
  | none => exact .inl ⟨_, rfl⟩
  | some parent =>
    cases (world.name? c).bind SlotName.index? with
    | none => exact .inl ⟨_, rfl⟩
    | some index => exact .inr ⟨parent, index, rfl, rfl⟩

theorem insertAfter_some {parent : CursorId} {index : Nat} (above : world.parent? c = some parent)
    (named : world.name? c = some (.index index)) (values : List Value) :
    insertAfter c values world =
      if index + 1 < indexBound then insertAt parent (index + 1) values world
      else .error (.fault .additionRange) world := by
  by_cases fits : index + 1 < indexBound
  · simp [insertAfter, run_placeInArray, above, named, SlotName.index?, fits]
  · simp [insertAfter, run_placeInArray, above, named, SlotName.index?, fits]

end Action

end CodeTree
