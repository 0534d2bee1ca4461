/-
The operations on the elements of an array make their edits: those that work on what their cursor
stands for, and those that insert beside it.
-/

import CodeTree.Proofs.Edits

namespace CodeTree

variable {world : World} {c x : CursorId} {path : List SlotName} {values : List Value} {index : Nat}

namespace World

variable {operation : Operation}

/-- An operation on an array is refused where there is none. -/
theorem Coherent.makesEdit_of_none (coherent : Coherent 0 world)
    (leads : world.follow? 0 (operation.place path) = some x)
    (plain : world.store.items? (world.value x) = none)
    (noMembers : ∀ members : List (String × Tree),
      operation.members? world.store.tree path.getLast? members = none)
    (result : operation.run c world = .error (.error (.notAnArray (world.shownName x))) world) :
    MakesEdit world c path operation := by
  refine Or.inr ⟨coherent.alter?_eq_none leads ?_ (fun _ => noMembers _), _, world, result, rfl⟩
  intro items array
  rw [Store.items?_eq_some.mpr array] at plain
  cases plain

/-- Inserting, at an index or beside an element. -/
theorem Coherent.makesEdit_insert (coherent : Coherent 0 world)
    (leads : world.follow? 0 (operation.place path) = some x)
    (runs : operation.run c world = (Operation.insertAt index values).run x world)
    (alters : ∀ {items}, world.store.contents? (world.value x) = some (.array items) →
      operation.items? id path.getLast? items =
      some (splice (min index items.length) 0 values items))
    (moves : ∀ {items name}, world.store.contents? (world.value x) = some (.array items) →
      operation.move path.getLast? items.length name =
      name.inserted (min index items.length) values.length)
    (noMembers : ∀ members : List (String × Tree),
      operation.members? world.store.tree path.getLast? members = none)
    (answers : ∀ items after, Answers c path items world after .done operation)
    (fits : (ended (operation.run c world)).store.Fits)
    (still : Coherent 0 (ended (operation.run c world))) : MakesEdit world c path operation := by
  cases array : world.store.items? (world.value x) with
  | none =>
    exact coherent.makesEdit_of_none leads array noMembers
      (runs.trans (Operation.run_of_none rfl array))
  | some items =>
    rw [Store.items?_eq_some] at array
    cases values with
    | nil =>
      have result : operation.run c world = .ok .done world := by
        rw [runs, Operation.run, Action.run_map,
          Action.insertAt_nil (Store.items?_eq_some.mpr array)]
      obtain ⟨id, here⟩ := Store.exists_id_of_contents? array
      have effect : Effect x nobody nobody some (world.store.contents? (world.value x)) world
          world :=
        Effect.none coherent.sound (coherent.agrees leads) fun same => (Option.some.inj same).symm
      have present := array
      rw [here] at present
      rw [array] at effect
      refine .of_effect coherent still leads here present ?_ result effect ?_ (answers _ _)
      · rw [Composite.tree, Operation.alter?, Operation.items?_map, alters array, splice_nothing]
        rfl
      · intro name target d _ goes
        rw [Composite.tree, Tree.items, List.length_map, moves array] at goes
        exact ⟨goes, False.elim⟩
    | cons first rest =>
      rw [runs] at fits
      have edits := coherent.editsArray_run leads array rfl fits
      rw [← runs] at edits
      refine .of_editsArray coherent still leads array edits (alters array) ?_ (answers _)
      intro name target d _ goes
      rw [moves array] at goes
      exact goes

/-- Inserting beside an element, in front of it or behind it. -/
theorem Coherent.makesEdit_beside (coherent : Coherent 0 world) {parent : CursorId}
    {front : List SlotName} {offset : Nat} (toParent : world.follow? 0 front = some parent)
    (kept : world.kept? parent (.index index) = some c) (near : offset ≤ 1)
    (placed : operation.place (front ++ [.index index]) = front)
    (runs : operation.run c world = (Operation.insertAt (index + offset) values).run parent world)
    (alters : ∀ items, operation.items? id (some (.index index)) items =
      some (splice (index + offset) 0 values items))
    (moves : ∀ length name, operation.move (some (.index index)) length name =
      name.inserted (index + offset) values.length) (noMembers : ∀ members : List (String × Tree),
      operation.members? world.store.tree (some (.index index)) members = none)
    (answers : ∀ items after, Answers c (front ++ [.index index]) items world after .done operation)
    (fits : (ended (operation.run c world)).store.Fits)
    (still : Coherent 0 (ended (operation.run c world))) :
    MakesEdit world c (front ++ [.index index]) operation := by
  have inside {items : List Value}
      (array : world.store.contents? (world.value parent) = some (.array items)) :
      min (index + offset) items.length = index + offset := by
    have early := coherent.tight toParent array kept
    omega
  refine coherent.makesEdit_insert ?_ runs ?_ ?_ ?_ answers fits still
  · rw [placed]
    exact toParent
  · intro items array
    rw [inside array, List.getLast?_concat]
    exact alters items
  · intro items name array
    rw [inside array, List.getLast?_concat]
    exact moves items.length name
  · intro members
    rw [List.getLast?_concat]
    exact noMembers members

namespace Coherent

variable (coherent : Coherent 0 world) (leads : world.follow? 0 path = some c)

include coherent leads

/-- Operations on the array that their cursor stands for. -/
theorem makesEdit_edit (edit : operation.editsArray = true)
    (fits : (ended (operation.run c world)).store.Fits)
    (still : Coherent 0 (ended (operation.run c world))) : MakesEdit world c path operation := by
  cases array : world.store.items? (world.value c) with
  | none =>
    have refused := operation.run_of_none edit array
    cases operation with
    | shift | unshift | push | pop | insertAt =>
      exact coherent.makesEdit_of_none leads array (fun _ => rfl) refused
    | _ => cases edit
  | some items =>
    rw [Store.items?_eq_some] at array
    have edits := coherent.editsArray_run leads array edit fits
    -- Where a child is kept for an element, there is an element to take away.
    have taken {start : Nat} {name target : SlotName} {d : CursorId}
        (kept : world.kept? c name = some d) (moves : name.spliced start 1 0 = some target) :
        name.spliced start (min 1 items.length) 0 = some target := by
      cases name with
      | key characters => exact moves
      | index position =>
        have inside := coherent.tight leads array kept
        rw [Nat.min_eq_left (by omega)]
        exact moves
    cases operation with
    | shift =>
      refine .of_editsArray coherent still leads array edits ?_ ?_ ?_
      · exact congrArg some (splice_tail items).symm
      · exact fun kept moves => taken kept moves
      · intro after
        show Operation.Answer.value items.head? = .value _
        rw [List.head?_map, map_value_tree]
    | unshift values =>
      refine .of_editsArray coherent still leads array edits ?_ (fun _ moves => moves) ?_
      · simp [Operation.items?, Operation.cut, Operation.inserted, splice]
      · intro after
        show Operation.Answer.count _ = .count _
        rw [List.length_map, Nat.add_comm]
    | push values =>
      refine .of_editsArray coherent still leads array edits ?_ (fun _ moves => moves) ?_
      · simp [Operation.items?, Operation.cut, Operation.inserted, splice_end]
      · intro after
        show Operation.Answer.count _ = .count _
        rw [List.length_map]
    | pop =>
      refine .of_editsArray coherent still leads array edits ?_ ?_ ?_
      · exact congrArg some (splice_dropLast items).symm
      · exact fun kept moves => taken kept moves
      · intro after
        show Operation.Answer.value items.getLast? = .value _
        rw [List.getLast?_map, map_value_tree]
    | insertAt index values =>
      refine coherent.makesEdit_insert leads rfl ?_ (fun _ => rfl) (fun _ => rfl) (fun _ _ => rfl)
        fits still
      intro items _
      simp [Operation.items?]
    | _ => cases edit

variable (held : c ∈ world.held)

include held

theorem makesEdit_insertBefore {values : List Value}
    (fits : (ended ((Operation.insertBefore values).run c world)).store.Fits)
    (still : Coherent 0 (ended ((Operation.insertBefore values).run c world))) :
    MakesEdit world c path (.insertBefore values) := by
  have runs := @Operation.run_insertBefore world c values
  rcases coherent.placeInArray_cases leads held with
    ⟨unplaced, x, cause, toX, result⟩ | ⟨front, parent, index, rfl, toParent, kept, result⟩ <;>
    rw [result] at runs
  · refine Or.inr ⟨coherent.alter?_eq_none toX ?_ (fun _ => rfl), .error cause, world, runs, rfl⟩
    intro items _
    rw [Operation.items?, unplaced]
    rfl
  · refine coherent.makesEdit_beside toParent kept (Nat.zero_le 1) (List.dropLast_concat) runs ?_
      (fun _ _ => rfl) (fun _ => rfl) (fun _ _ => rfl) fits still
    intro items
    simp [Operation.items?, SlotName.index?]

theorem makesEdit_insertAfter {values : List Value}
    (fits : (ended ((Operation.insertAfter values).run c world)).store.Fits)
    (still : Coherent 0 (ended ((Operation.insertAfter values).run c world))) :
    MakesEdit world c path (.insertAfter values) := by
  have runs := @Operation.run_insertAfter world c values
  rcases coherent.placeInArray_cases leads held with
    ⟨unplaced, x, cause, toX, result⟩ | ⟨front, parent, index, rfl, toParent, kept, result⟩ <;>
    rw [result] at runs
  · refine Or.inr ⟨coherent.alter?_eq_none toX ?_ (fun _ => rfl), .error cause, world, runs, rfl⟩
    intro items _
    rw [Operation.items?, unplaced]
    rfl
  · by_cases small : index + 1 < indexBound
    · refine coherent.makesEdit_beside toParent kept (Nat.le_refl 1) (List.dropLast_concat)
        (runs.trans (if_pos small)) ?_ (fun _ _ => rfl) (fun _ => rfl) (fun _ _ => rfl) fits still
      intro items
      simp [Operation.items?, SlotName.index?]
    · have fault := runs.trans (if_neg small)
      have leadsPlace : world.follow? 0 ((Operation.insertAfter values).place
          (front ++ [.index index])) = some parent := by
        rw [Operation.place, List.dropLast_concat]
        exact toParent
      refine Or.inr ⟨coherent.alter?_eq_none leadsPlace ?_ (fun _ => rfl),
        .fault .additionRange, world, fault, rfl⟩
      -- An element at the last index stands in no array.
      intro items array
      rw [fault] at fits
      have bounded : items.length < indexBound := fits array
      have inside := coherent.tight toParent array kept
      omega

end Coherent

end World

end CodeTree
