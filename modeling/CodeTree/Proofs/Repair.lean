/-
How a cursor and its parent are brought into step, in every case. Where the slot of the cursor's
name still holds its value, the parent keeps the cursor there. Where it does not, an array is
searched for the value, and an object is given it back. The end is good exactly if asking the
parent for the slot then leads to the cursor.
-/

import CodeTree.Proofs.Moving

namespace CodeTree

variable {members : Assoc String Value} {items : List Value} {position : Nat}
  {value container : Value} {bears other : SlotName}

variable {world : World} {store : Store} {c d e parent : CursorId} {name : SlotName}

namespace Store

/-- The position that is found holds the value, or one that is the same. -/
theorem position?_eq_some (found : position? items value = some position) :
    ∃ item, items[position]? = some item ∧ item.same value = true := by
  obtain ⟨inside, same, _⟩ := List.findIdx?_eq_some_iff_getElem.mp found
  exact ⟨_, List.getElem?_eq_getElem inside, same⟩

theorem position?_eq_none :
    position? items value = none ↔ ∀ item ∈ items, item.same value = false := by
  rw [position?, List.findIdx?_eq_none_iff]

/-- What was written under a key is read there. -/
theorem slot_setMember (object : store.contents? container = some (.object members))
    (name : SlotName) :
    (store.setMember container name.text value).slot container name = value := by
  have written : (store.setMember container name.text value).contents? container =
      some (.object (members.insert name.text value)) :=
    contents?_modifyMembers_self object _
  rw [slot_object written, Assoc.get?_insert_self, Option.getD_some]

/-- A write to a member leaves an object an object. -/
theorem normalName_setMember (object : store.contents? container = some (.object members))
    (key : String) (name : SlotName) :
    (store.setMember container key value).normalName container name =
      store.normalName container name := by
  have written : (store.setMember container key value).contents? container =
      some (.object (members.insert key value)) :=
    contents?_modifyMembers_self object _
  rw [normalName_object written, normalName_object object]

end Store

namespace World

/-- The world after a cursor has been found at another index of its array. -/
def found (world : World) (c parent : CursorId) (name : SlotName) (position : Nat) : World :=
  ((world.forgetOnly parent name c).rename c (.index position)).keep parent (.index position) c

/-- The world after the value of a cursor has been put back under its key. -/
def putBack (world : World) (c parent : CursorId) (name : SlotName) : World :=
  { world with store := world.store.setMember (world.value parent) name.text (world.value c) }.keep
    parent name c

/-- A cursor and its parent are in step: the parent keeps the cursor under the name it bears, and
the slot of that name holds its value. -/
structure InStep (world : World) (c parent : CursorId) (name : SlotName) : Prop where
  sound : Sound world
  above : world.above? c = some parent
  named : world.name? c = some name
  kept : world.kept? parent name = some c
  normal : world.store.normalName (world.value parent) name = name
  agrees : (world.store.slot (world.value parent) name).same (world.value c) = true

/-- A cursor of a key of an object, where the key shows something else than what the cursor
remembers. -/
structure Estranged (world : World) (c parent : CursorId) (key : String) : Prop where
  named : world.name? c = some (.key key)
  object : ∃ members, world.store.contents? (world.value parent) = some (.object members)
  differs : (world.store.slot (world.value parent) (.key key)).same (world.value c) = false
  proper : (world.value c).isNaN = false

/-- A cursor has been brought into step with its parent. No other child has come to anyone, and
the store is as it was unless the cursor was estranged. -/
structure Repaired (world : World) (c parent : CursorId) (name : SlotName) (after : World) : Prop
    extends InStep after c parent name where
  others : ∀ {d other e}, after.kept? d other = some e → e ≠ c → world.kept? d other = some e
  spares : ∀ {d}, d ≠ c → world.Forgotten d → Leaves d world after
  store : Alike world after ∨
    ∃ key, world.Estranged c parent key ∧ after = world.putBack c parent (.key key)

section Found

/-- Keeping a cursor brings no other child to anyone. -/
theorem kept?_of_keep (inside : parent < world.cursors.size)
    (kept : (world.keep parent name c).kept? d other = some e) (different : e ≠ c) :
    world.kept? d other = some e := by
  rw [kept?_keep world inside] at kept
  split at kept
  · exact absurd (Option.some.inj kept).symm different
  · exact kept

theorem alike_found (world : World) (c parent : CursorId) (name : SlotName) (position : Nat) :
    Alike world (world.found c parent name position) :=
  ((alike_forgetOnly world parent name c).trans (alike_rename _ _ _)).trans (alike_keep _ _ _ _)

theorem name?_found (inside : c < world.cursors.size) (position : Nat) :
    (world.found c parent name position).name? c = some (.index position) := by
  rw [found, name?_keep, name?_rename_self]
  rw [(alike_forgetOnly world parent name c).size]
  exact inside

theorem kept?_found (inside : parent < world.cursors.size) (position : Nat) :
    (world.found c parent name position).kept? parent (.index position) = some c := by
  rw [found, kept?_keep, if_pos ⟨rfl, rfl⟩]
  rw [(alike_rename _ _ _).size, (alike_forgetOnly world parent name c).size]
  exact inside

theorem kept?_of_found (inside : parent < world.cursors.size)
    (kept : (world.found c parent name position).kept? d other = some e) (different : e ≠ c) :
    world.kept? d other = some e := by
  have grown : parent <
      ((world.forgetOnly parent name c).rename c (.index position)).cursors.size := by
    rw [(alike_rename _ _ _).size, (alike_forgetOnly world parent name c).size]
    exact inside
  have remaining := kept?_of_keep grown kept different
  rw [kept?_rename, kept?_forgetOnly] at remaining
  split at remaining
  · cases remaining
  · exact remaining

theorem Sound.found (sound : Sound world) (above : world.above? c = some parent)
    (named : world.name? c = some name) (position : Nat) :
    Sound (world.found c parent name position) := by
  have inside := lt_size_of_above? above
  have forgotten := alike_forgetOnly world parent name c
  have soundForgotten := sound.forgetOnly parent name c
  have unkept : (world.forgetOnly parent name c).kept? parent name ≠ some c := by
    rw [kept?_forgetOnly]
    split
    · exact nofun
    · rename_i other
      exact fun kept => other ⟨rfl, rfl, kept⟩
  have nowhere := soundForgotten.not_kept_of_name (by rw [forgotten.above]; exact above)
    (by rw [name?_forgetOnly]; exact named) unkept
  have grown : c < (world.forgetOnly parent name c).cursors.size := by
    rw [forgotten.size]
    exact inside
  have bears := (name?_forgetOnly world parent c name c).trans named
  refine (soundForgotten.rename (.index position) grown bears nowhere).keep ?_ ?_
  · rw [(alike_rename _ _ _).above, forgotten.above]
    exact above
  · exact name?_rename_self _ grown _

theorem Forgotten.found (forgotten : world.Forgotten d) (inside : parent < world.cursors.size)
    (different : d ≠ c) (position : Nat) : Leaves d world (world.found c parent name position) := by
  have first := forgotten.forgetOnly parent name c
  have second := first.trans (first.forgotten.rename different (.index position))
  refine second.trans (second.forgotten.keep ?_ _ different)
  rw [(alike_rename _ _ _).size, (alike_forgetOnly world parent name c).size]
  exact inside

theorem Forgotten.putBack (forgotten : world.Forgotten d) (inside : parent < world.cursors.size)
    (different : d ≠ c) : Leaves d world (world.putBack c parent name) := by
  have first := forgotten.withStore
    (world.store.setMember (world.value parent) name.text (world.value c))
  exact first.trans (first.forgotten.keep inside name different)

/-- A cursor whose name is not the normal one of its slot is not what the slot leads to. -/
theorem Sound.child_ne (sound : Sound world) (inside : c < world.cursors.size)
    (named : world.name? c = some name)
    (abnormal : world.store.normalName (world.value parent) name ≠ name) :
    (world.child parent name).1 ≠ c := by
  rcases world.child_cases parent name with ⟨kept, keptThere, _, result⟩ | ⟨_, result⟩
  · rw [result]
    rintro rfl
    have bears := (sound.kept keptThere).2.1
    rw [named] at bears
    exact abnormal (Option.some.inj bears).symm
  · rw [result]
    exact Nat.ne_of_gt inside

theorem store_child (world : World) (c : CursorId) (name : SlotName) :
    (world.child c name).2.store = world.store := by
  rcases world.child_cases c name with ⟨_, _, _, result⟩ | ⟨_, result⟩ <;> rw [result]
  rfl

end Found

end World

namespace Action

open World

/-- The check at the end of a repair: the slot of the name holds the value, and asking for it
leads to the cursor. -/
def checkRepaired (c parent : CursorId) (container value : Value) (name : SlotName) :
    Action Unit := do
  let world ← get
  let name := (world.name? c).getD name
  insist ((world.store.slot container name).same value) .outOfStep
  insist ((← ofState (·.child parent name)) == c) .unresolved

/-- A repair looks where the value of the cursor is, changes the world accordingly, and checks. -/
theorem repair_eq (named : world.name? c = some name) :
    repair c parent world =
      checkRepaired c parent (world.value parent) (world.value c) name
        (if (world.store.slot (world.value parent) name).same (world.value c) then
          world.keep parent name c
        else
          match world.store.contents? (world.value parent) with
          | some (.array items) =>
            match Store.position? items (world.value c) with
            | some position => world.found c parent name position
            | none => world
          | some (.object _) => world.putBack c parent name
          | none => world) := by
  by_cases agrees : (world.store.slot (world.value parent) name).same (world.value c) = true
  · simp only [repair, run_bind, run_get, named, agrees, if_true, run_modify, checkRepaired]
  · rw [if_neg agrees]
    simp only [repair, run_bind, run_get, named, agrees, Bool.false_eq_true, if_false]
    cases world.store.contents? (world.value parent) with
    | none => rfl
    | some contents =>
      cases contents with
      | object members => rfl
      | array items =>
        dsimp only
        cases Store.position? items (world.value c) <;> rfl

/-- A cursor in step passes the check. -/
theorem checkRepaired_inStep (inStep : InStep world c parent bears)
    (sameContainer : world.value parent = container) (sameValue : world.value c = value) :
    checkRepaired c parent container value name world = .ok () world := by
  have leads := child_of_kept inStep.kept inStep.normal inStep.agrees
  have agrees := inStep.agrees
  rw [sameContainer, sameValue] at agrees
  simp [checkRepaired, inStep.named, agrees, leads]

theorem checkRepaired_lost (named : world.name? c = some bears)
    (differs : (world.store.slot container bears).same value = false) :
    checkRepaired c parent container value name world = .error (.fault .outOfStep) world := by
  simp [checkRepaired, named, differs]

/-! ### The cases of a repair -/

section Cases

variable (sound : Sound world) (above : world.above? c = some parent)
  (named : world.name? c = some name)

include sound above named

section Agrees

variable (agrees : (world.store.slot (world.value parent) name).same (world.value c) = true)

include agrees

section Normal

variable (normal : world.store.normalName (world.value parent) name = name)

include normal

theorem inStep_keep : InStep (world.keep parent name c) c parent name := by
  have inside := sound.parent_lt_size above
  have alike := alike_keep world parent name c
  refine ⟨sound.keep above named, ?_, (name?_keep _ _ _ _ _).trans named, ?_, ?_, ?_⟩
  · rw [alike.above]
    exact above
  · rw [kept?_keep world inside, if_pos ⟨rfl, rfl⟩]
  · rw [alike.store, alike.value]
    exact normal
  · rw [alike.store, alike.value, alike.value]
    exact agrees

theorem checkRepaired_keep :
    checkRepaired c parent (world.value parent) (world.value c) name (world.keep parent name c) =
      .ok () (world.keep parent name c) :=
  checkRepaired_inStep (inStep_keep sound above named agrees normal)
    ((alike_keep world parent name c).value _) ((alike_keep world parent name c).value _)

/-- The cursor stands where it thinks, and is kept there from now on. -/
theorem repair_agrees : repair c parent world = .ok () (world.keep parent name c) := by
  rw [repair_eq named, if_pos agrees]
  exact checkRepaired_keep sound above named agrees normal

end Normal

section Abnormal

variable (abnormal : world.store.normalName (world.value parent) name ≠ name)

include abnormal

theorem checkRepaired_abnormal : ∃ after,
    checkRepaired c parent (world.value parent) (world.value c) name (world.keep parent name c) =
      .error (.fault .unresolved) after ∧ after.store = world.store := by
  have alike := alike_keep world parent name c
  have bears := (name?_keep world parent c name c).trans named
  have misled : ((world.keep parent name c).child parent name).1 ≠ c := by
    refine (sound.keep above named).child_ne ?_ bears ?_
    · rw [alike.size]
      exact lt_size_of_above? above
    · rw [alike.store, alike.value]
      exact abnormal
  refine ⟨((world.keep parent name c).child parent name).2, ?_, ?_⟩
  · simp [checkRepaired, bears, alike.store, agrees, beq_false_of_ne misled]
  · rw [store_child, alike.store]

/-- The slot holds the value, but goes by another name than the cursor's. -/
theorem repair_abnormal : ∃ after, repair c parent world = .error (.fault .unresolved) after ∧
    after.store = world.store := by
  rw [repair_eq named, if_pos agrees]
  exact checkRepaired_abnormal sound above named agrees abnormal

end Abnormal

end Agrees

section Differs

variable (differs : (world.store.slot (world.value parent) name).same (world.value c) = false)

section Array

variable (array : world.store.contents? (world.value parent) = some (.array items))

include array

theorem inStep_found (foundAt : Store.position? items (world.value c) = some position) :
    InStep (world.found c parent name position) c parent (.index position) := by
  have inside := sound.parent_lt_size above
  have alike := alike_found world c parent name position
  obtain ⟨item, present, same⟩ := Store.position?_eq_some foundAt
  refine ⟨sound.found above named position, ?_,
    name?_found (lt_size_of_above? above) position, kept?_found inside position, ?_, ?_⟩
  · rw [alike.above]
    exact above
  · rw [alike.store, alike.value]
    exact Store.normalName_array array _
  · rw [alike.store, alike.value, alike.value, Store.slot_array array, present]
    exact same

include differs

/-- The value has left the slot, but is found elsewhere in the array. -/
theorem repair_found (foundAt : Store.position? items (world.value c) = some position) :
    repair c parent world = .ok () (world.found c parent name position) := by
  have alike := alike_found world c parent name position
  rw [repair_eq named, if_neg (ne_true_of_eq_false differs), array]
  dsimp only
  rw [foundAt]
  exact checkRepaired_inStep (inStep_found sound above named array foundAt) (alike.value _)
    (alike.value _)

omit sound above in
/-- The value is nowhere in the array. -/
theorem repair_lost (nowhere : Store.position? items (world.value c) = none) :
    repair c parent world = .error (.fault .outOfStep) world := by
  rw [repair_eq named, if_neg (ne_true_of_eq_false differs), array]
  dsimp only
  rw [nowhere]
  exact checkRepaired_lost named differs

end Array

omit sound above in
include differs in
/-- A value without slots holds nothing. -/
theorem repair_plain (plain : world.store.contents? (world.value parent) = none) :
    repair c parent world = .error (.fault .outOfStep) world := by
  rw [repair_eq named, if_neg (ne_true_of_eq_false differs), plain]
  exact checkRepaired_lost named differs

section Object

variable (object : world.store.contents? (world.value parent) = some (.object members))

include object

omit sound above named in
/-- What has been put back is in its slot. -/
theorem slot_putBack (name : SlotName) (proper : (world.value c).isNaN = false) :
    ((world.store.setMember (world.value parent) name.text (world.value c)).slot
      (world.value parent) name).same (world.value c) = true := by
  rw [Store.slot_setMember object]
  exact Value.same_self proper

include differs

/-- The value is put back, but the cursor's name is not the one the slot goes by, or the value
is not even the same as itself. -/
theorem repair_putBack_fault (bad : ¬∃ key, world.Estranged c parent key) :
    ∃ cause after, repair c parent world = .error (.fault cause) after ∧
      (cause = .outOfStep ∨ cause = .unresolved) ∧
      after.store = world.store.setMember (world.value parent) name.text (world.value c) := by
  rw [repair_eq named, if_neg (ne_true_of_eq_false differs), object]
  dsimp only [World.putBack]
  cases proper : (world.value c).isNaN with
  | false =>
    obtain ⟨after, result, store⟩ := checkRepaired_abnormal
      (sound.withStore (world.store.setMember (world.value parent) name.text (world.value c)))
      above named (slot_putBack object name proper) fun normal => bad ⟨name.text, by
        have same := (Store.normalName_object object name).symm.trans
          ((Store.normalName_setMember object _ _).symm.trans normal)
        exact ⟨by rw [same, named], ⟨members, object⟩, by rw [same, differs], proper⟩⟩
    exact ⟨_, after, result, Or.inr rfl, store⟩
  | true =>
    refine ⟨_, _, checkRepaired_lost ((name?_keep _ _ _ _ _).trans named) ?_, Or.inl rfl,
      (alike_keep _ _ _ _).store⟩
    rw [(alike_keep _ _ _ _).store, Store.slot_setMember object]
    refine Bool.eq_false_iff.mpr fun same => ?_
    rw [(Value.not_isNaN_of_same same).1] at proper
    cases proper

end Object

end Differs

omit named

section Estranged

variable {key : String} (estranged : world.Estranged c parent key)

include estranged

theorem inStep_putBack : InStep (world.putBack c parent (.key key)) c parent (.key key) := by
  obtain ⟨members, object⟩ := estranged.object
  exact inStep_keep (sound.withStore _) above estranged.named
    (slot_putBack object (.key key) estranged.proper)
    ((Store.normalName_setMember object _ _).trans (Store.normalName_object object _))

/-- The value is put back under the key of the cursor. -/
theorem repair_putBack : repair c parent world = .ok () (world.putBack c parent (.key key)) := by
  obtain ⟨members, object⟩ := estranged.object
  rw [repair_eq estranged.named, if_neg (ne_true_of_eq_false estranged.differs), object]
  exact checkRepaired_keep (sound.withStore _) above estranged.named
    (slot_putBack object (.key key) estranged.proper)
    ((Store.normalName_setMember object _ _).trans (Store.normalName_object object _))

end Estranged

/-- A repair brings the cursor and its parent into step, or it complains. -/
theorem repair_cases :
    (∃ after name, repair c parent world = .ok () after ∧ Repaired world c parent name after) ∨
    ∃ cause after, repair c parent world = .error (.fault cause) after ∧
      (cause = .outOfStep ∨ cause = .unresolved) := by
  have inside := sound.parent_lt_size above
  obtain ⟨name, named⟩ := sound.exists_name above
  cases agrees : (world.store.slot (world.value parent) name).same (world.value c) with
  | true =>
    by_cases normal : world.store.normalName (world.value parent) name = name
    · exact Or.inl ⟨_, name, repair_agrees sound above named agrees normal,
        inStep_keep sound above named agrees normal,
        fun kept different => kept?_of_keep inside kept different,
        fun different forgotten => forgotten.keep inside name different,
        .inl (alike_keep _ _ _ _)⟩
    · obtain ⟨after, result, _⟩ := repair_abnormal sound above named agrees normal
      exact Or.inr ⟨_, after, result, Or.inr rfl⟩
  | false =>
    cases contents : world.store.contents? (world.value parent) with
    | none => exact Or.inr ⟨_, _, repair_plain named agrees contents, Or.inl rfl⟩
    | some composite =>
      cases composite with
      | array items =>
        cases foundAt : Store.position? items (world.value c) with
        | none => exact Or.inr ⟨_, _, repair_lost named agrees contents foundAt, Or.inl rfl⟩
        | some position =>
          exact Or.inl ⟨_, .index position, repair_found sound above named agrees contents foundAt,
            inStep_found sound above named contents foundAt,
            fun kept different => kept?_of_found inside kept different,
            fun different forgotten => forgotten.found inside different position,
            .inl (alike_found _ _ _ _ _)⟩
      | object members =>
        by_cases good : ∃ key, world.Estranged c parent key
        · obtain ⟨key, estranged⟩ := good
          exact Or.inl ⟨_, .key key, repair_putBack sound above estranged,
            inStep_putBack sound above estranged,
            fun kept different => kept?_of_keep inside kept different,
            fun different forgotten => forgotten.putBack inside different,
            .inr ⟨key, estranged, rfl⟩⟩
        · obtain ⟨cause, after, result, which, _⟩ :=
            repair_putBack_fault sound above named agrees contents good
          exact Or.inr ⟨cause, after, result, which⟩

end Cases

end Action

end CodeTree
