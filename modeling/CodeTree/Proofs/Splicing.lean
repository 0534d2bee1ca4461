/-
The edits of an array are splices: a run of elements gives way to others, and the elements
behind move. Each edit writes the spliced elements and moves the kept children as their slots
move. Where every kept element is one that the array has, and the spliced array still has
indices for all its elements, no child is left without a name.
-/

import CodeTree.Proofs.Coherence

namespace CodeTree

variable {world : World} {c : CursorId} {items : List Value} {name : SlotName}
  {move : SlotName → Option SlotName}

namespace SlotName

/-- Where the slots of an array go when a run of elements gives way to others. -/
def spliced (start removed added : Nat) : SlotName → Option SlotName
  | index position =>
    if position < start then some (index position)
    else if position < start + removed then none
    else some (index (position - removed + added))
  | key characters => if characters = "length" then none else some (key characters)

theorem without_length (move : SlotName → Option SlotName) (characters : String) :
    without length move (key characters) =
      if characters = "length" then none else move (key characters) := by
  simp [without, length]

theorem shifted_eq_spliced (start added : Nat) :
    shifted start (added : Int) = spliced start 0 added := by
  funext name
  cases name with
  | key characters => exact without_length _ characters
  | index position =>
    rw [shifted, without, if_neg (index_ne_length _), slide, spliced]
    by_cases front : position < start
    · rw [if_neg (Nat.not_le_of_lt front), if_pos front]
    · rw [if_pos (Nat.le_of_not_lt front), if_neg front, if_neg (by omega)]
      congr 2

theorem without_shifted_eq_spliced (gap : Nat) :
    without (index gap) (shifted (gap + 1) (-1)) = spliced gap 1 0 := by
  funext name
  cases name with
  | key characters =>
    rw [without, if_neg (key_ne_index _ _)]
    exact without_length _ characters
  | index position =>
    rw [spliced]
    by_cases here : position = gap
    · rw [without, if_pos (congrArg index here), if_neg (by omega), if_pos (by omega)]
    · rw [without, if_neg (fun same => here (index.inj same)), shifted, without,
        if_neg (index_ne_length _), slide]
      by_cases front : position < gap
      · rw [if_neg (by omega), if_pos front]
      · rw [if_pos (by omega), if_neg front, if_neg (by omega)]
        congr 2
        omega

/-- Where nothing gives way to nothing, no slot moves. -/
theorem eq_of_spliced_nothing {start : Nat} {target : SlotName}
    (goes : spliced start 0 0 name = some target) : target = name := by
  cases name with
  | key characters =>
    rw [spliced] at goes
    split at goes <;> cases goes
    rfl
  | index position =>
    rw [spliced] at goes
    split at goes
    · cases goes
      rfl
    · split at goes <;> cases goes
      rfl

/-- At the end of an array, nothing moves. -/
theorem without_length_eq_spliced {size added : Nat}
    (inside : ∀ {position}, name = index position → position < size) :
    without length some name = spliced size 0 added name := by
  cases name with
  | key characters => exact without_length _ characters
  | index position => rw [without, if_neg (index_ne_length _), spliced, if_pos (inside rfl)]

theorem popMove_eq_spliced (inside : ∀ {position}, name = index position → position < items.length) :
    Action.popMove items name = spliced (items.length - 1) (min 1 items.length) 0 name := by
  cases items with
  | nil => exact without_length_eq_spliced inside
  | cons first rest =>
    rw [Action.popMove, if_neg (List.cons_ne_nil first rest)]
    cases name with
    | key characters =>
      rw [without, if_neg (key_ne_index _ _)]
      exact without_length _ characters
    | index position =>
      have smaller := inside rfl
      rw [spliced]
      by_cases last : position = (first :: rest).length - 1
      · rw [without, if_pos (congrArg index last), if_neg (by omega), if_pos (by omega)]
      · rw [without, if_neg (fun same => last (index.inj same)), without,
          if_neg (index_ne_length _), if_pos (by omega)]

end SlotName

/-! ### Elements of a spliced list -/

section Splice

variable {α : Type} {start removed : Nat} {added items : List α}

theorem getElem?_splice_front (inside : start ≤ items.length) {position : Nat}
    (front : position < start) :
    (splice start removed added items)[position]? = items[position]? := by
  rw [splice, List.append_assoc, List.getElem?_append_left (by rw [List.length_take]; omega),
    List.getElem?_take_of_lt front]

theorem getElem?_splice_behind (inside : start ≤ items.length) {position : Nat}
    (behind : start + removed ≤ position) :
    (splice start removed added items)[position - removed + added.length]? = items[position]? := by
  have length : (items.take start ++ added).length = start + added.length := by
    rw [List.length_append, List.length_take, Nat.min_eq_left inside]
  rw [splice, List.getElem?_append_right (by omega), length, List.getElem?_drop]
  congr 1
  omega

theorem mem_of_mem_splice {item : α} (member : item ∈ splice start removed added items) :
    item ∈ added ∨ item ∈ items := by
  rw [splice, List.mem_append, List.mem_append] at member
  rcases member with (front | new) | behind
  · exact Or.inr (List.mem_of_mem_take front)
  · exact Or.inl new
  · exact Or.inr (List.mem_of_mem_drop behind)

theorem splice_tail (items : List α) : splice 0 (min 1 items.length) [] items = items.tail := by
  cases items with
  | nil => rfl
  | cons first rest => simp [splice]

theorem splice_dropLast (items : List α) :
    splice (items.length - 1) (min 1 items.length) [] items = items.dropLast := by
  cases items with
  | nil => rfl
  | cons first rest => simp [splice, List.dropLast_eq_take]

theorem splice_end (added items : List α) : splice items.length 0 added items = items ++ added := by
  simp [splice]

theorem splice_nothing (start : Nat) (items : List α) : splice start 0 [] items = items := by
  simp [splice]

end Splice

namespace World

/-- A rearrangement is determined by where it moves the names that are kept. -/
theorem Rearranged.congr {other : SlotName → Option SlotName} {parent : CursorId}
    {before after : World} (rearranged : Rearranged move parent before after)
    (same : ∀ {name d}, before.kept? parent name = some d → move name = other name) :
    Rearranged other parent before after where
  toAlike := rearranged.toAlike
  others := rearranged.others
  entries := by
    intro target d
    rw [rearranged.entries]
    constructor
    · rintro ⟨name, kept, goes⟩
      exact ⟨name, kept, (same kept).symm.trans goes⟩
    · rintro ⟨name, kept, goes⟩
      exact ⟨name, kept, (same kept).trans goes⟩
  moved kept goes := rearranged.moved kept ((same kept).trans goes)
  stays dropped := rearranged.stays fun name kept => (same kept).trans (dropped name kept)

/-- Writing the elements that an array has already changes nothing. -/
theorem writeItems_self (array : world.store.contents? (world.value c) = some (.array items)) :
    world.writeItems c items = world := by
  rw [writeItems, Store.modifyItems_of_fixed array rfl]

end World

/-- The world that an action ends in, whichever way it ends. -/
def ended {α : Type} : EStateM.Result (Halt EditError) World α → World
  | .ok _ world => world
  | .error _ world => world

theorem ended_map {α β : Type} (change : α → β) (action : Action α) (world : World) :
    ended ((change <$> action) world) = ended (action world) := by
  rw [Action.run_map]
  cases action world <;> rfl

namespace World

section Array

variable (array : world.store.contents? (world.value c) = some (.array items))
  (tight : ∀ {position d}, world.kept? c (.index position) = some d → position < items.length)

/-- A splice of the array at a cursor, and of the children it keeps. -/
def Spliced (c : CursorId) (items : List Value) (start removed : Nat) (added : List Value)
    (before after : World) : Prop :=
  Rearranged (SlotName.spliced start removed added.length) c
    (before.writeItems c (splice start removed added items)) after

include array tight

/-- Where the written array still fits, no child moves beyond the last index. -/
theorem EndsMoved.answered {α : Type} {outcome : EStateM.Result (Halt EditError) World α}
    {answer : α} {offset : Int} {written : List Value}
    (ends : EndsMoved outcome answer move offset c (world.writeItems c written))
    (length : (items.length : Int) + offset = written.length) (fits : (ended outcome).store.Fits) :
    ∃ after, outcome = .ok answer after ∧ Rearranged move c (world.writeItems c written) after := by
  rcases ends with answered | ⟨after, position, d, rfl, store, kept, beyond⟩
  · exact answered
  · have smaller := tight kept
    have contents : after.store.contents? (world.value c) = some (.array written) := by
      rw [store]
      exact Store.contents?_modifyItems_self array _
    have bounded := fits contents
    omega

end Array

end World

namespace Action

open World

section Edits

variable (sound : Sound world) (inside : c < world.cursors.size)
  (array : world.store.contents? (world.value c) = some (.array items))
  (tight : ∀ {position d}, world.kept? c (.index position) = some d → position < items.length)

include sound inside array tight

theorem shift_spliced (fits : (ended (shift c world)).store.Fits) :
    ∃ after, shift c world = .ok items.head? after ∧
      Spliced c items 0 (min 1 items.length) [] world after := by
  rw [← Store.items?_eq_some] at array
  cases items with
  | nil =>
    refine ⟨_, shift_nil array, ?_⟩
    rw [Spliced, splice_tail, List.tail_nil, writeItems_self (Store.items?_eq_some.mp array)]
    refine ((sound.forget c .length).rearranged_refl c).after_forget.congr ?_
    intro name d kept
    refine SlotName.without_length_eq_spliced fun {position} named => ?_
    rw [named] at kept
    exact tight kept
  | cons first rest =>
    have ends := shift_cons sound inside array
    rw [SlotName.without_shifted_eq_spliced] at ends
    refine ends.answered (Store.items?_eq_some.mp array) tight ?_ fits
    rw [List.length_cons]
    omega

theorem unshift_spliced (values : List Value) (fits : (ended (unshift c values world)).store.Fits) :
    ∃ after, unshift c values world = .ok (values.length + items.length) after ∧
      Spliced c items 0 0 values world after := by
  have ends := unshift_some sound inside (Store.items?_eq_some.mpr array) values
  rw [SlotName.shifted_eq_spliced] at ends
  refine ends.answered array tight ?_ fits
  rw [List.length_append]
  omega

omit inside in
theorem push_spliced (values : List Value) :
    ∃ after, push c values world = .ok (items.length + values.length) after ∧
      Spliced c items items.length 0 values world after := by
  obtain ⟨after, result, rearranged⟩ := push_some sound (Store.items?_eq_some.mpr array) values
  refine ⟨after, result, ?_⟩
  rw [Spliced, splice_end]
  refine rearranged.congr fun {name d} kept => ?_
  refine SlotName.without_length_eq_spliced fun {position} named => ?_
  rw [named] at kept
  exact tight kept

omit inside in
theorem pop_spliced :
    ∃ after, pop c world = .ok items.getLast? after ∧
      Spliced c items (items.length - 1) (min 1 items.length) [] world after := by
  obtain ⟨after, result, rearranged⟩ := pop_some sound (Store.items?_eq_some.mpr array)
  refine ⟨after, result, ?_⟩
  rw [Spliced, splice_dropLast]
  refine rearranged.congr fun {name d} kept => ?_
  refine SlotName.popMove_eq_spliced fun {position} named => ?_
  rw [named] at kept
  exact tight kept

theorem insertAt_spliced (index : Nat) {values : List Value} (nonempty : values ≠ [])
    (fits : (ended (insertAt c index values world)).store.Fits) :
    ∃ after, insertAt c index values world = .ok ⟨⟩ after ∧
      Spliced c items (min index items.length) 0 values world after := by
  have ends := insertAt_some sound inside (Store.items?_eq_some.mpr array) index nonempty
  rw [SlotName.shifted_eq_spliced] at ends
  refine ends.answered array tight ?_ fits
  rw [List.length_append, List.length_append, List.length_take, List.length_drop]
  omega

end Edits

end Action

end CodeTree
