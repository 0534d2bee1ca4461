/-
What a cursor can be asked, and how every operation ends. In a world whose kept cursors are in
order, an operation that is answered or refused leaves them in order, whatever the composites hold
and whether the cursor still stands for anything. A cursor that nobody keeps is left alone, unless
it is itself asked for a replacement. An operation may also end with a fault. Two of
the faults are about the kept cursors alone: that one is kept under a name it does not bear,
which never happens, and that one would have to move to a number that is no index.
-/

import CodeTree.Proofs.Paths

namespace CodeTree

variable {before world : World} {c parent : CursorId} {spared : CursorId → Prop} {offset : Int}
  {items : List Value} {added : Nat}

/-- What a cursor can be asked to do. -/
inductive Operation where
  | get (name : SlotName)
  | getIn (names : List SlotName)
  | shift
  | unshift (values : List Value)
  | push (values : List Value)
  | pop
  | insertAt (index : Nat) (values : List Value)
  | insertBefore (values : List Value)
  | insertAfter (values : List Value)
  | replace (values : List Value)
  | replaceWith (value : Value)
  | remove

/-- What an operation is answered with. -/
inductive Operation.Answer where
  | done
  | cursor (c : CursorId)
  | cursors (cs : List CursorId)
  | value (value? : Option Value)
  | count (length : Nat)
deriving DecidableEq

namespace Operation

/-- The values that an operation brings along. -/
def inserted : Operation → List Value
  | unshift values | push values | insertAt _ values | insertBefore values | insertAfter values
  | replace values => values
  | replaceWith value => [value]
  | get _ | getIn _ | shift | pop | remove => []

/-- Asks a cursor. -/
def run (c : CursorId) : Operation → Action Answer
  | get name => .cursor <$> Action.ofState (·.child c name)
  | getIn names => .cursor <$> Action.ofState (·.descend c names)
  | shift => .value <$> Action.shift c
  | unshift values => .count <$> Action.unshift c values
  | push values => .count <$> Action.push c values
  | pop => .value <$> Action.pop c
  | insertAt index values => (fun _ => .done) <$> Action.insertAt c index values
  | insertBefore values => (fun _ => .done) <$> Action.insertBefore c values
  | insertAfter values => (fun _ => .done) <$> Action.insertAfter c values
  | replace values => .cursors <$> Action.replace c values
  | replaceWith value => .cursor <$> Action.replaceWith c value
  | remove => (fun _ => .done) <$> Action.remove c

/-- The operations that edit the array at their cursor. -/
def editsArray : Operation → Bool
  | shift | unshift _ | push _ | pop | insertAt _ _ => true
  | _ => false

/-- Where there is no array, its edits are refused. -/
theorem run_of_none {operation : Operation} (edit : operation.editsArray = true)
    (none : world.store.items? (world.value c) = none) :
    operation.run c world = .error (.error (.notAnArray (world.shownName c))) world := by
  cases operation with
  | shift | unshift | push | pop | insertAt =>
    simp [run, Action.shift, Action.unshift, Action.push, Action.pop, Action.insertAt,
      Action.run_arrayAt, none]
  | _ => cases edit

/-- To insert beside an element is to insert into the array around it. -/
theorem run_insertBefore (values : List Value) : (insertBefore values).run c world =
    match Action.placeInArray c world with
    | .ok (parent, index) _ => (insertAt index values).run parent world
    | .error halt _ => .error halt world := by
  simp only [run, Action.run_map, Action.insertBefore, Action.run_bind]
  rcases Action.placeInArray_cases world c with ⟨_, result⟩ | ⟨_, _, result, _⟩ <;> rw [result]

theorem run_insertAfter (values : List Value) : (insertAfter values).run c world =
    match Action.placeInArray c world with
    | .ok (parent, index) _ =>
      if index + 1 < indexBound then (insertAt (index + 1) values).run parent world
      else .error (.fault .additionRange) world
    | .error halt _ => .error halt world := by
  simp only [run, Action.run_map, Action.insertAfter, Action.run_bind, Action.run_insist]
  rcases Action.placeInArray_cases world c with ⟨_, result⟩ | ⟨_, index, result, _⟩ <;> rw [result]
  by_cases small : index + 1 < indexBound <;> simp [small]

/-- An operation comes to its end without a fault: it is answered or refused. -/
def Ends (operation : Operation) (c : CursorId) (world after : World) : Prop :=
  (∃ answer, operation.run c world = .ok answer after) ∨
  ∃ cause, operation.run c world = .error (.error cause) after

/-- The cursors that an operation at a cursor leaves alone once nobody keeps them. Only a
replacement reaches its own cursor then. -/
def Spares (operation : Operation) (c d : CursorId) : Prop :=
  match operation with
  | replace _ | replaceWith _ | remove => d ≠ c
  | _ => True

end Operation

namespace World

/-! ### Ends that keep the structure -/

/-- Every kept element can move up by a number of places and still have an index. -/
def Roomy (world : World) (added : Nat) : Prop :=
  ∀ {parent position c}, world.kept? parent (.index position) = some c →
    position + added < indexBound

/-- A world in which the kept cursors are in order, and which an action has reached leaving alone
what nobody keeps of the cursors it spares. -/
structure Settled (spared : CursorId → Prop) (before after : World) : Prop where
  sound : Sound after
  leaves : ∀ {d}, spared d → before.Forgotten d → Leaves d before after

/-- An action ends properly if an answer or a refusal leaves the cursors settled, and a fault is
not about them, unless one of them has no room to move. -/
def Settles {α : Type} (world : World) (spared : CursorId → Prop) (added : Nat) :
    EStateM.Result (Halt EditError) World α → Prop
  | .ok _ after => Settled spared world after
  | .error (.error _) after => Settled spared world after
  | .error (.fault cause) _ =>
    cause ≠ .keptUnderOtherName ∧ (cause = .indexRange → ¬world.Roomy added)
  | .error .outOfTurns _ => False

section Settles

variable {α β : Type}

theorem Sound.settled (sound : Sound world) : Settled spared world world :=
  ⟨sound, fun _ forgotten => forgotten.refl⟩

theorem Settled.trans {first second third : World} (left : Settled spared first second)
    (right : Settled spared second third) : Settled spared first third where
  sound := right.sound
  leaves spares forgotten :=
    (left.leaves spares forgotten).trans
      (right.leaves spares (left.leaves spares forgotten).forgotten)

theorem settles_map {action : Action α} {start : World} (change : α → β)
    (settles : Settles world spared added (action start)) :
    Settles world spared added ((change <$> action) start) := by
  rw [Action.run_map]
  cases outcome : action start with
  | ok result after =>
    rw [outcome] at settles
    exact settles
  | error halt after =>
    rw [outcome] at settles
    cases halt <;> exact settles

theorem settles_fault {cause : Fault} (otherName : cause ≠ .keptUnderOtherName)
    (range : cause ≠ .indexRange) (after : World) :
    Settles world spared added (.error (.fault cause) after : EStateM.Result _ _ α) :=
  ⟨otherName, fun same => absurd same range⟩

/-- A child that has to move beyond the last index shows that there was no room. -/
theorem not_roomy {position : Nat} (kept : world.kept? parent (.index position) = some c)
    (beyond : (indexBound : Int) ≤ position + offset) (bounded : offset ≤ added) :
    ¬world.Roomy added := by
  intro roomy
  have room := roomy kept
  omega

theorem Rearranged.settled {after : World} {move : SlotName → Option SlotName} {c : CursorId}
    {items : List Value} (rearranged : Rearranged move c (world.writeItems c items) after)
    (sound : Sound world) : Settled spared world after where
  sound := rearranged.sound (sound.writeItems c items)
  leaves _ forgotten :=
    (forgotten.withStore _).trans (rearranged.leaves (forgotten.withStore _).forgotten)

theorem EndsMoved.settles {outcome : EStateM.Result (Halt EditError) World α} {answer : α}
    {move : SlotName → Option SlotName}
    (ends : EndsMoved outcome answer move offset c (world.writeItems c items)) (sound : Sound world)
    (bounded : offset ≤ added) : Settles world spared added outcome := by
  rcases ends with ⟨after, rfl, rearranged⟩ | ⟨after, position, d, rfl, _, kept, beyond⟩
  · exact rearranged.settled sound
  · exact ⟨nofun, fun _ => not_roomy kept beyond bounded⟩

end Settles

/-! ### Navigation -/

/-- The cursor that is found for a slot is kept there, and stands for what the slot holds, unless
that is not even the same as itself. -/
theorem child_spec (inside : c < world.cursors.size) (name : SlotName) :
    (world.child c name).2.kept? c (world.store.normalName (world.value c) name) =
        some (world.child c name).1 ∧
      ((world.store.slot (world.value c) (world.store.normalName (world.value c) name)).isNaN =
        false → ((world.child c name).2.value (world.child c name).1).same
          (world.store.slot (world.value c) (world.store.normalName (world.value c) name)) =
            true) := by
  rcases world.child_cases c name with ⟨kept, keptThere, same, result⟩ | ⟨_, result⟩
  · rw [result]
    exact ⟨keptThere, fun _ => same⟩
  · rw [result, fst_addChild]
    refine ⟨?_, fun proper => ?_⟩
    · rw [kept?_addChild _ _ _ inside, if_pos ⟨rfl, rfl⟩]
    · rw [value_addChild, if_pos rfl]
      exact Value.same_self proper

theorem settled_child (sound : Sound world) (inside : c < world.cursors.size) (name : SlotName) :
    Settled spared world (world.child c name).2 :=
  ⟨sound.child inside name, fun _ forgotten => forgotten.child inside name⟩

theorem settled_descend (sound : Sound world) (inside : c < world.cursors.size)
    (names : List SlotName) : Settled spared world (world.descend c names).2 := by
  induction names generalizing world c with
  | nil => exact sound.settled
  | cons name rest ih =>
    have soundChild := sound.child inside name
    exact (settled_child sound inside name).trans
      (ih soundChild (soundChild.kept (child_spec inside name).1).2.2)

end World

namespace Action

open World

section Operations

variable (sound : Sound world)

include sound

/-! ### Edits of an array -/

theorem settles_edit {operation : Operation} (edit : operation.editsArray = true)
    (inside : c < world.cursors.size) :
    Settles world spared operation.inserted.length (operation.run c world) := by
  cases array : world.store.items? (world.value c) with
  | none =>
    rw [operation.run_of_none edit array]
    exact sound.settled
  | some items =>
    cases operation with
    | shift =>
      refine settles_map _ ?_
      cases items with
      | nil =>
        rw [shift_nil array]
        exact ⟨sound.forget c .length, fun _ forgotten => forgotten.forget c .length⟩
      | cons first rest => exact (shift_cons sound inside array).settles sound (by omega)
    | unshift values =>
      exact settles_map _ ((unshift_some sound inside array values).settles sound (Int.le_refl _))
    | push values =>
      obtain ⟨after, result, rearranged⟩ := push_some sound array values
      refine settles_map _ ?_
      rw [result]
      exact rearranged.settled sound
    | pop =>
      obtain ⟨after, result, rearranged⟩ := pop_some sound array
      refine settles_map _ ?_
      rw [result]
      exact rearranged.settled sound
    | insertAt index values =>
      refine settles_map _ ?_
      by_cases nothing : values = []
      · rw [nothing, insertAt_nil array]
        exact sound.settled
      · exact (insertAt_some sound inside array index nothing).settles sound (Int.le_refl _)
    | _ => cases edit

theorem settles_insertBefore (values : List Value) :
    Settles world spared values.length ((Operation.insertBefore values).run c world) := by
  rw [Operation.run_insertBefore]
  rcases placeInArray_cases world c with ⟨_, result⟩ | ⟨_, _, result, living⟩ <;> rw [result]
  · exact sound.settled
  · exact settles_edit sound rfl (sound.parent_lt_size (above?_of_parent? living))

theorem settles_insertAfter (values : List Value) :
    Settles world spared values.length ((Operation.insertAfter values).run c world) := by
  rw [Operation.run_insertAfter]
  rcases placeInArray_cases world c with ⟨_, result⟩ | ⟨_, index, result, living⟩ <;> rw [result]
  · exact sound.settled
  · dsimp only
    split
    · exact settles_edit sound rfl (sound.parent_lt_size (above?_of_parent? living))
    · exact settles_fault (by decide) (by decide) _

end Operations

/-! ### Replacements -/

section Replace

theorem settled_clear (sound : Sound world) (c : CursorId) (value : Value) :
    Settled (· ≠ c) world ((world.setValue c value).forgetAll c) :=
  ⟨sound.clear c value, fun different forgotten => forgotten.clear different value⟩

theorem settled_revalue (sound : Sound world) (c : CursorId) (value : Value) :
    Settled (· ≠ c) world (world.revalue c value) :=
  ⟨sound.revalue c value, fun different forgotten => forgotten.revalue different value⟩

theorem settles_replaceMember (settled : Settled (· ≠ c) before world) (name : SlotName)
    (values : List Value) :
    Settles before (· ≠ c) added (replaceMember c parent name values world) := by
  have sound := settled.sound
  match values with
  | [] =>
    exact settled.trans ⟨sound.dropMember c parent name,
      fun different forgotten => forgotten.dropMember different parent name⟩
  | [value] =>
    rw [replaceMember_single]
    exact settled.trans ⟨sound.takeMember c parent name value,
      fun different forgotten => forgotten.takeMember different parent name value⟩
  | _ :: _ :: _ => exact settled

/-- Once a cursor stands at its element, replacing it ends properly. The other children are where
they were before. -/
theorem settles_replaceElement {index : Nat} (settled : Settled (· ≠ c) before world)
    (inStep : InStep world c parent (.index index))
    (others : ∀ {d other e}, world.kept? d other = some e → e ≠ c → before.kept? d other = some e)
    (array : world.store.contents? (world.value parent) = some (.array items))
    (inside : index < items.length) (values : List Value) :
    Settles before (· ≠ c) values.length
      (replaceElement c parent (.index index) items values world) := by
  have sound := inStep.sound
  -- The children behind the element are not the cursor itself, which stands at its own index.
  have crowded {position : Nat} {d : CursorId} {offset : Int} {added : Nat}
      (behind : index < position) (kept : world.kept? parent (.index position) = some d)
      (beyond : (indexBound : Int) ≤ position + offset) (bounded : offset ≤ added) :
      ¬before.Roomy added := by
    refine not_roomy (others kept ?_) beyond bounded
    rintro rfl
    have named := inStep.named
    rw [(sound.kept kept).2.1] at named
    cases named
    exact Nat.lt_irrefl _ behind
  match values with
  | [] =>
    rcases replaceElement_nil inStep array inside with
      ⟨mid, result, rearranged⟩ | ⟨after, position, d, result, _, behind, kept, beyond⟩
    · rw [result]
      have moved := settled.trans (rearranged.settled sound)
      exact moved.trans (settled_clear moved.sound c .null)
    · rw [result]
      exact ⟨nofun, fun _ => crowded behind kept beyond (by omega)⟩
  | first :: rest =>
    rcases replaceElement_cons inStep array inside first rest with
      ⟨mid, rearranged, ⟨_, result⟩ | ⟨_, after, result, grown⟩⟩ |
        ⟨after, position, d, result, _, _, behind, kept, beyond⟩
    · rw [result]
      exact settles_fault (by decide) (by decide) _
    · rw [result]
      have moved := settled.trans (rearranged.settled sound)
      have taken := moved.trans (settled_revalue moved.sound c first)
      refine taken.trans ⟨grown.sound taken.sound ?_, fun _ forgotten => grown.leaves forgotten⟩
      rw [size_revalue, rearranged.size]
      exact lt_size_of_kept? inStep.kept
    · rw [result]
      refine ⟨nofun, fun _ => crowded behind kept beyond ?_⟩
      rw [List.length_cons]
      omega

/-- Once a cursor and its parent are in step, a replacement ends properly. -/
theorem settles_replaceInStep {name : SlotName} (settled : Settled (· ≠ c) before world)
    (inStep : InStep world c parent name)
    (others : ∀ {d other e}, world.kept? d other = some e → e ≠ c → before.kept? d other = some e)
    (values : List Value) :
    Settles before (· ≠ c) values.length (replaceInStep c parent values world) := by
  cases contents : world.store.contents? (world.value parent) with
  | none =>
    rw [replaceInStep_plain inStep.named contents]
    exact settled
  | some composite =>
    cases composite with
    | object members =>
      rw [replaceInStep_object inStep.named contents]
      exact settles_replaceMember settled name values
    | array items =>
      rw [replaceInStep_array inStep.named contents]
      cases name with
      | key characters =>
        rw [replaceElement_key]
        exact settled
      | index index =>
        rcases Nat.lt_or_ge index items.length with inside | beyond
        · exact settles_replaceElement settled inStep others contents inside values
        · rw [replaceElement_removed beyond]
          exact settles_fault (by decide) (by decide) _

theorem settles_replace (sound : Sound world) (values : List Value) :
    Settles world (· ≠ c) values.length (replace c values world) := by
  cases living : world.parent? c with
  | none =>
    rw [replace_of_none living]
    exact sound.settled
  | some parent =>
    have above : (world.withoutViews c).above? c = some parent := by
      rw [(alike_withoutViews world c).above]
      exact above?_of_parent? living
    rw [replace_of_some living]
    rcases repair_cases (sound.withoutViews c) above with
      ⟨after, name, result, repaired⟩ | ⟨cause, after, result, which⟩
    · rw [result]
      have unseen : Settled (· ≠ c) world (world.withoutViews c) :=
        ⟨sound.withoutViews c, fun _ forgotten => forgotten.withoutViews c⟩
      refine settles_replaceInStep (unseen.trans ⟨repaired.sound, repaired.spares⟩)
        repaired.toInStep (fun kept different => ?_) values
      rw [← kept?_withoutViews world c]
      exact repaired.others kept different
    · rw [result]
      dsimp only
      rcases which with rfl | rfl <;> exact settles_fault (by decide) (by decide) _

end Replace

end Action

open World in
/-- Every operation ends properly. -/
theorem Operation.settles (sound : Sound world) (inside : c < world.cursors.size)
    (operation : Operation) :
    Settles world (operation.Spares c) operation.inserted.length (operation.run c world) := by
  cases operation with
  | get name => exact settled_child sound inside name
  | getIn names => exact settled_descend sound inside names
  | shift | unshift | push | pop | insertAt => exact Action.settles_edit sound rfl inside
  | insertBefore values => exact Action.settles_insertBefore sound values
  | insertAfter values => exact Action.settles_insertAfter sound values
  | replace values => exact settles_map _ (Action.settles_replace sound values)
  | replaceWith value =>
    rw [run, Action.replaceWith_eq]
    exact settles_map _ (settles_map _ (Action.settles_replace sound [value]))
  | remove =>
    rw [run, Action.remove_eq]
    exact settles_map _ (settles_map _ (Action.settles_replace sound []))

open World in
theorem Operation.Ends.settled {operation : Operation} {c : CursorId} {world after : World}
    (ends : operation.Ends c world after) (sound : Sound world) (inside : c < world.cursors.size) :
    Settled (operation.Spares c) world after := by
  have settles := operation.settles sound inside
  rcases ends with ⟨answer, result⟩ | ⟨cause, result⟩
  · rw [result] at settles
    exact settles
  · rw [result] at settles
    exact settles

end CodeTree
