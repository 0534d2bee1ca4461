/-
Writing through cursors that were removed. A cursor whose element has been taken out of an array
is no longer kept, but it still knows its parent, its old name and its old value. When it is
asked for a replacement it goes back to the parent and looks whether what it remembers is there.
It knows an element by identity alone, and equal primitives are identical. So it fails and
writes nothing exactly if it finds nothing to take for its own; where it does, it overwrites an
element that it never stood for.
-/

import CodeTree.Proofs.Interference
import CodeTree.Proofs.Splicing

namespace CodeTree

variable {after mid start world : World} {store : Store} {c parent : CursorId}
  {members : Assoc String Value} {items values : List Value} {name : SlotName}

/-- An outcome that is a failure and has left the store as it was. -/
def Unwritten {α : Type} (store : Store) (outcome : EStateM.Result (Halt EditError) World α) :
    Prop :=
  ∃ halt after, outcome = .error halt after ∧ after.store = store

theorem not_unwritten_ok {α : Type} {answer : α} : ¬Unwritten store (.ok answer after) := by
  rintro ⟨_, _, result, _⟩
  cases result

theorem unwritten_error {α : Type} {halt : Halt EditError} :
    Unwritten store (.error halt after : EStateM.Result _ _ α) ↔ after.store = store := by
  constructor
  · rintro ⟨_, _, result, same⟩
    cases result
    exact same
  · intro same
    exact ⟨halt, after, rfl, same⟩

namespace World

/-- Whether a cursor below a parent finds a slot to replace. In an array, where its slot still
shows what it remembers, this must be an element; otherwise any element will do that is the same
as what it remembers. In an object, where its slot shows what it remembers, it must bear a key,
which takes one value at most; otherwise it puts what it remembers back. -/
def Finds (world : World) (c parent : CursorId) (values : List Value) : Prop :=
  ∃ name, world.name? c = some name ∧
    match world.store.contents? (world.value parent) with
    | some (.array items) =>
      if (world.store.slot (world.value parent) name).same (world.value c) then
        ∃ position, name = .index position ∧ position < items.length
      else ∃ item ∈ items, item.same (world.value c) = true
    | some (.object members) =>
      if (world.store.slot (world.value parent) name).same (world.value c) then
        (∃ key, name = .key key) ∧ values.length ≤ 1
      else members.get? name.text ≠ some (world.value c)
    | none => False

theorem not_finds_plain (plain : world.store.contents? (world.value parent) = none) :
    ¬world.Finds c parent values := by
  simp only [Finds, plain, and_false, exists_false, not_false_eq_true]

/-! ### Stores that were written -/

theorem store_writeItems_ne {written : List Value}
    (array : world.store.contents? (world.value c) = some (.array items))
    (different : written ≠ items) : (world.writeItems c written).store ≠ world.store := by
  intro same
  have contents := Store.contents?_modifyItems_self array fun _ => written
  rw [writeItems] at same
  rw [show world.store.modifyItems (world.value c) (fun _ => written) = world.store from same,
    array] at contents
  cases contents
  exact different rfl

/-- Putting a value back changes what the object shows under the key, and nothing else. -/
theorem store_putBack (world : World) (c parent : CursorId) (key : String) :
    (world.putBack c parent (.key key)).store =
      world.store.setMember (world.value parent) key (world.value c) :=
  (alike_keep { world with
    store := world.store.setMember (world.value parent) key (world.value c) } _ _ _).store

theorem value_putBack (world : World) (c parent : CursorId) (name : SlotName) (d : CursorId) :
    (world.putBack c parent name).value d = world.value d :=
  (alike_keep { world with
    store := world.store.setMember (world.value parent) name.text (world.value c) } _ _ _).value d

theorem store_setMember_eq_iff
    (object : world.store.contents? (world.value c) = some (.object members)) (key : String)
    (value : Value) :
    world.store.setMember (world.value c) key value = world.store ↔
      members.get? key = some value := by
  constructor
  · intro same
    have contents : (world.store.setMember (world.value c) key value).contents? (world.value c) =
        some (.object (members.insert key value)) := Store.contents?_modifyMembers_self object _
    rw [same, object] at contents
    rw [Composite.object.inj (Option.some.inj contents), Assoc.get?_insert_self]
  · intro present
    exact Store.modifyMembers_of_fixed object (Assoc.insert_of_get? present)

theorem Estranged.store_ne {key : String} (estranged : world.Estranged c parent key) :
    world.store.setMember (world.value parent) key (world.value c) ≠ world.store := by
  obtain ⟨members, object⟩ := estranged.object
  rw [Ne, store_setMember_eq_iff object]
  intro present
  have differs := estranged.differs
  rw [Store.slot_object object, SlotName.text, present, Option.getD_some,
    Value.same_self estranged.proper] at differs
  cases differs

end World

namespace Action

open World

/-! ### Elements -/

/-- Replacing an element writes, whichever way it ends. An element takes any number of values: what
goes wrong there is a fault. -/
theorem replaceElement_written {index : Nat} (inStep : InStep world c parent (.index index))
    (array : world.store.contents? (world.value parent) = some (.array items))
    (inside : index < items.length) (values : List Value) :
    (ended (replaceElement c parent (.index index) items values world)).store =
        (world.writeItems parent (splice index 1 values items)).store ∧
      ¬Unwritten world.store (replaceElement c parent (.index index) items values world) ∧
      ∀ cause after, replaceElement c parent (.index index) items values world ≠
        .error (.error cause) after := by
  have agrees := inStep.agrees
  rw [Store.slot_array array] at agrees
  have length := @length_splice Value index 1 values items (Nat.succ_le_of_lt inside)
  cases values with
  | nil =>
    rcases replaceElement_nil inStep array inside with
      ⟨mid, result, rearranged⟩ | ⟨after, _, _, result, store, _⟩
    · rw [result]
      exact ⟨rearranged.store, not_unwritten_ok, nofun⟩
    · rw [result, unwritten_error, store]
      refine ⟨store, store_writeItems_ne array fun same => ?_, nofun⟩
      rw [same, List.length_nil] at length
      omega
  | cons first rest =>
    rcases replaceElement_cons inStep array inside first rest with
      ⟨mid, rearranged, ⟨improper, result⟩ | ⟨_, after, result, grown⟩⟩ |
        ⟨after, _, _, result, store, more, _⟩
    · rw [result, unwritten_error, rearranged.store]
      refine ⟨rearranged.store, store_writeItems_ne array fun same => ?_, nofun⟩
      -- What stood in the slot was the same as something, and so it was not NaN.
      have added := @getElem?_splice_added Value index 1 (first :: rest) items
        (Nat.le_of_lt inside) 0 (Nat.succ_pos _)
      rw [Nat.add_zero, same] at added
      rw [added] at agrees
      have proper := (Value.not_isNaN_of_same agrees).1
      exact Bool.false_ne_true (proper.symm.trans improper)
    · rw [result]
      refine ⟨?_, not_unwritten_ok, nofun⟩
      rw [← rearranged.store]
      exact grown.store.trans (store_revalue first)
    · rw [result, unwritten_error, store]
      refine ⟨store, store_writeItems_ne array fun same => more ?_, nofun⟩
      rw [same, List.length_cons] at length
      exact List.length_eq_zero_iff.mp (by omega)

/-- A key takes one value at most, and nothing else goes wrong there. -/
theorem replaceMember_refused {halt : Halt EditError}
    (refused : replaceMember c parent name values world = .error halt after) :
    2 ≤ values.length ∧ after = world := by
  match values with
  | [] => cases refused
  | [value] =>
    rw [replaceMember_single] at refused
    cases refused
  | first :: second :: rest =>
    cases refused
    exact ⟨Nat.le_add_left 2 _, rfl⟩

theorem unwritten_replaceMember : Unwritten store (replaceMember c parent name values world) ↔
    2 ≤ values.length ∧ world.store = store := by
  constructor
  · rintro ⟨halt, after, refused, same⟩
    obtain ⟨several, rfl⟩ := replaceMember_refused refused
    exact ⟨several, same⟩
  · rintro ⟨several, same⟩
    match values, several with
    | first :: second :: rest, _ => exact unwritten_error.mpr same

/-- Brings a cursor into step with its parent, and replaces what it then stands for. -/
def mend (c parent : CursorId) (values : List Value) : Action (List CursorId) := do
  repair c parent
  replaceInStep c parent values

theorem replace_eq_mend (living : world.parent? c = some parent) (values : List Value) :
    replace c values world = mend c parent values (world.withoutViews c) := by
  rw [replace_of_some living, mend, run_bind]
  cases repair c parent (world.withoutViews c) <;> rfl

theorem mend_of_ok (repaired : repair c parent world = .ok () mid) (values : List Value) :
    mend c parent values world = replaceInStep c parent values mid := by
  rw [mend, run_bind, repaired]

theorem mend_of_error {halt : Halt EditError} (broken : repair c parent world = .error halt mid)
    (values : List Value) : mend c parent values world = .error halt mid := by
  rw [mend, run_bind, broken]

section Mend

variable (sound : Sound world) (above : world.above? c = some parent)
  (named : world.name? c = some name) (values : List Value)

/-! ### Below an array -/

section Array

variable (array : world.store.contents? (world.value parent) = some (.array items))

include array

/-- A cursor that has come into step at an element overwrites it. -/
theorem mend_element {position : Nat} (repaired : repair c parent world = .ok () mid)
    (alike : Alike world mid) (inStep : InStep mid c parent (.index position))
    (inside : position < items.length) :
    ¬Unwritten world.store (mend c parent values world) ∧
      ∃ item, items[position]? = some item ∧ item.same (world.value c) = true ∧
        (ended (mend c parent values world)).store = world.store.modifyItems (world.value parent)
          fun _ => splice position 1 values items := by
  have arrayNow := (alike.contents? parent).trans array
  have agrees := inStep.agrees
  obtain ⟨written, wrote, _⟩ := replaceElement_written inStep arrayNow inside values
  rw [mend_of_ok repaired, replaceInStep_array inStep.named arrayNow]
  rw [writeItems, alike.store, alike.value] at written
  rw [alike.store] at wrote
  refine ⟨wrote, items[position], List.getElem?_eq_getElem inside, ?_, written⟩
  rw [Store.slot_array arrayNow, List.getElem?_eq_getElem inside, alike.value] at agrees
  exact agrees

include sound above named

/-- Below an array a cursor writes exactly if it finds an element to take for its own, and then
it overwrites this element. -/
theorem mend_array :
    (Unwritten world.store (mend c parent values world) ↔ ¬world.Finds c parent values) ∧
      (world.Finds c parent values → ∃ position item, items[position]? = some item ∧
        item.same (world.value c) = true ∧
        (ended (mend c parent values world)).store = world.store.modifyItems (world.value parent)
          fun _ => splice position 1 values items) := by
  simp only [Finds, named, array, Option.some.injEq, exists_eq_left']
  cases agrees : (world.store.slot (world.value parent) name).same (world.value c) with
  | true =>
    rw [if_pos rfl]
    have normal := Store.normalName_array array name
    have repaired := repair_agrees sound above named agrees normal
    have inStep := inStep_keep sound above named agrees normal
    have alike := alike_keep world parent name c
    have arrayNow := (alike.contents? parent).trans array
    by_cases found : ∃ position, name = .index position ∧ position < items.length
    · obtain ⟨position, rfl, inside⟩ := found
      obtain ⟨wrote, element⟩ := mend_element values array repaired alike inStep inside
      exact ⟨iff_of_false wrote (not_not_intro ⟨position, rfl, inside⟩),
        fun _ => ⟨position, element⟩⟩
    · refine ⟨iff_of_true ?_ found, fun finds => absurd finds found⟩
      rw [mend_of_ok repaired, replaceInStep_array inStep.named arrayNow]
      cases name with
      | key characters =>
        rw [replaceElement_key, unwritten_error]
        exact alike.store
      | index position =>
        rcases Nat.lt_or_ge position items.length with inside | beyond
        · exact absurd ⟨position, rfl, inside⟩ found
        · rw [replaceElement_removed beyond, unwritten_error]
          exact alike.store
  | false =>
    rw [if_neg Bool.false_ne_true]
    cases foundAt : Store.position? items (world.value c) with
    | none =>
      have nowhere : ¬∃ item ∈ items, item.same (world.value c) = true := by
        rintro ⟨item, member, same⟩
        rw [Store.position?_eq_none.mp foundAt item member] at same
        cases same
      refine ⟨iff_of_true ?_ nowhere, fun finds => absurd finds nowhere⟩
      rw [mend_of_error (repair_lost named agrees array foundAt), unwritten_error]
    | some position =>
      obtain ⟨item, present, same⟩ := Store.position?_eq_some foundAt
      obtain ⟨wrote, element⟩ := mend_element values array
        (repair_found sound above named agrees array foundAt)
        (alike_found world c parent name position) (inStep_found sound above named array foundAt)
        (List.getElem?_eq_some_iff.mp present).1
      have finds : ∃ item ∈ items, item.same (world.value c) = true :=
        ⟨item, List.mem_of_getElem? present, same⟩
      exact ⟨iff_of_false wrote (not_not_intro finds), fun _ => ⟨position, element⟩⟩

end Array

/-! ### Below anything else -/

include sound above

/-- An estranged cursor puts its value back, and then its key is replaced. -/
theorem mend_estranged {key : String} (estranged : world.Estranged c parent key) :
    mend c parent values world =
      replaceMember c parent (.key key) values (world.putBack c parent (.key key)) := by
  obtain ⟨members, object⟩ := estranged.object
  rw [mend_of_ok (repair_putBack sound above estranged)]
  have objectNow : (world.putBack c parent (.key key)).store.contents?
      ((world.putBack c parent (.key key)).value parent) =
      some (.object (members.insert key (world.value c))) := by
    rw [store_putBack, value_putBack]
    exact Store.contents?_modifyMembers_self object _
  exact replaceInStep_object (inStep_putBack sound above estranged).named objectNow values

include named

section Object

variable (object : world.store.contents? (world.value parent) = some (.object members))

include object

/-- Where the slot shows what the cursor remembers, a key takes one value at most. -/
theorem mend_member
    (agrees : (world.store.slot (world.value parent) name).same (world.value c) = true) :
    Unwritten world.store (mend c parent values world) ↔
      ¬((∃ key, name = .key key) ∧ values.length ≤ 1) := by
  by_cases normal : world.store.normalName (world.value parent) name = name
  · have alike := alike_keep world parent name c
    have inStep := inStep_keep sound above named agrees normal
    have objectNow := (alike.contents? parent).trans object
    have bears : ∃ key, name = .key key := by
      rw [Store.normalName_object object] at normal
      exact ⟨name.text, normal.symm⟩
    rw [mend_of_ok (repair_agrees sound above named agrees normal),
      replaceInStep_object inStep.named objectNow]
    rw [unwritten_replaceMember, and_iff_left alike.store, and_iff_right bears, Nat.not_le]
    exact Iff.rfl
  · obtain ⟨after, broken, store⟩ := repair_abnormal sound above named agrees normal
    rw [mend_of_error broken, unwritten_error]
    refine iff_of_true store ?_
    rintro ⟨⟨key, rfl⟩, _⟩
    exact normal (Store.normalName_object object _)

/-- Where the slot shows something else, what the cursor remembers is put back before anything
else is done, and stays there even if the replacement fails. -/
theorem mend_putBack
    (differs : (world.store.slot (world.value parent) name).same (world.value c) = false) :
    Unwritten world.store (mend c parent values world) ↔
      members.get? name.text = some (world.value c) := by
  have unchanged := store_setMember_eq_iff object name.text (world.value c)
  by_cases estranged : ∃ key, world.Estranged c parent key
  · obtain ⟨key, estranged⟩ := estranged
    cases estranged.named.symm.trans named
    rw [mend_estranged sound above values estranged, unwritten_replaceMember, store_putBack]
    have different := estranged.store_ne
    exact iff_of_false (fun kept => different kept.2) fun present => different (unchanged.mpr present)
  · obtain ⟨cause, after, broken, _, store⟩ :=
      repair_putBack_fault sound above named differs object estranged
    rw [mend_of_error broken, unwritten_error, store]
    exact unchanged

theorem mend_object :
    Unwritten world.store (mend c parent values world) ↔ ¬world.Finds c parent values := by
  simp only [Finds, named, object, Option.some.injEq, exists_eq_left']
  cases agrees : (world.store.slot (world.value parent) name).same (world.value c) with
  | true =>
    rw [if_pos rfl]
    exact mend_member sound above named values object agrees
  | false =>
    rw [if_neg Bool.false_ne_true, Classical.not_not]
    exact mend_putBack sound above named values object agrees

end Object

/-- Below a value without slots nothing is found, and nothing is written. -/
theorem mend_plain (plain : world.store.contents? (world.value parent) = none) :
    Unwritten world.store (mend c parent values world) := by
  cases agrees : (world.store.slot (world.value parent) name).same (world.value c) with
  | true =>
    have normal := Store.normalName_of_none plain name
    have alike := alike_keep world parent name c
    have inStep := inStep_keep sound above named agrees normal
    rw [mend_of_ok (repair_agrees sound above named agrees normal),
      replaceInStep_plain inStep.named ((alike.contents? parent).trans plain),
      unwritten_error]
    exact alike.store
  | false => rw [mend_of_error (repair_plain named agrees plain), unwritten_error]

theorem mend_unwritten_iff :
    Unwritten world.store (mend c parent values world) ↔ ¬world.Finds c parent values := by
  cases contents : world.store.contents? (world.value parent) with
  | none =>
    exact iff_of_true (mend_plain sound above named values contents) (not_finds_plain contents)
  | some composite =>
    cases composite with
    | array items => exact (mend_array sound above named values contents).1
    | object members => exact mend_object sound above named values contents

end Mend

end Action

namespace World

/-! ### Cursors that were removed -/

theorem finds_withoutViews :
    (world.withoutViews c).Finds c parent values ↔ world.Finds c parent values := by
  have alike := alike_withoutViews world c
  simp only [Finds, name?_withoutViews, alike.store, alike.value]

/-- A replacement writes nothing exactly if its cursor has no parent, or finds nothing there. -/
theorem Sound.replace_unwritten_iff (sound : Sound world) (c : CursorId) (values : List Value) :
    Unwritten world.store (Action.replace c values world) ↔
      ¬∃ parent, world.parent? c = some parent ∧ world.Finds c parent values := by
  cases living : world.parent? c with
  | none =>
    rw [Action.replace_of_none living, unwritten_error]
    exact iff_of_true rfl nofun
  | some parent =>
    obtain ⟨name, named⟩ := sound.exists_name (above?_of_parent? living)
    have mends := Action.mend_unwritten_iff (sound.withoutViews c)
      (((alike_withoutViews world c).above c).trans (above?_of_parent? living))
      ((name?_withoutViews world c c).trans named) values
    rw [finds_withoutViews, (alike_withoutViews world c).store] at mends
    rw [Action.replace_eq_mend living, mends]
    simp only [Option.some.injEq, exists_eq_left']

/-- Below an array, what is written is one element that the cursor has found. -/
theorem Sound.replace_writes_element (sound : Sound world) (living : world.parent? c = some parent)
    (array : world.store.contents? (world.value parent) = some (.array items))
    (finds : world.Finds c parent values) :
    ∃ position item, items[position]? = some item ∧ item.same (world.value c) = true ∧
      (ended (Action.replace c values world)).store =
        world.store.modifyItems (world.value parent) fun _ => splice position 1 values items := by
  obtain ⟨name, named⟩ := sound.exists_name (above?_of_parent? living)
  have alike := alike_withoutViews world c
  obtain ⟨position, item, present, same, written⟩ := (Action.mend_array (sound.withoutViews c)
    ((alike.above c).trans (above?_of_parent? living))
    ((name?_withoutViews world c c).trans named) values
    ((contents?_withoutViews world c parent).trans array)).2 (finds_withoutViews.mpr finds)
  rw [alike.value] at same
  rw [alike.store, alike.value] at written
  exact ⟨position, item, present, same, by rw [Action.replace_eq_mend living]; exact written⟩

/-- A cursor that was kept below an array has lost its place there to an operation, in the first
of the worlds, and has not been asked for a replacement until the second. -/
inductive Removed (c : CursorId) : World → World → Prop where
  | taken {world after : World} {parent : CursorId} {name : SlotName} {items : List Value}
      (x : CursorId) (operation : Operation) : Interfered world →
      world.kept? parent name = some c →
      world.store.contents? (world.value parent) = some (.array items) →
      x < world.cursors.size → operation.Ends x world after → after.Forgotten c →
      Removed c after after
  | asked {start world after : World} (x : CursorId) (operation : Operation) :
      Removed c start world → x < world.cursors.size → operation.Ends x world after →
      operation.Spares x c → Removed c start after
  | disturbed {start world after : World} :
      Removed c start world → Disturbs world after → Removed c start after

theorem Removed.interfered (removed : Removed c start world) : Interfered world := by
  induction removed with
  | taken x operation run _ _ inside ends _ => exact .asked x operation run inside ends
  | asked x operation _ inside ends _ run => exact .asked x operation run inside ends
  | disturbed _ disturbs run => exact .disturbed run disturbs

/-- A removed cursor stays removed, and remembers what it remembered when it was. -/
theorem Removed.leaves (removed : Removed c start world) : Leaves c start world := by
  induction removed with
  | taken _ _ _ _ _ _ _ forgotten => exact forgotten.refl
  | asked x operation before inside ends spares left =>
    exact left.trans ((ends.settled before.interfered.sound inside).leaves spares left.forgotten)
  | disturbed before disturbs left =>
    have settled := @Disturbs.settled (fun _ => True) _ _ disturbs before.interfered.sound
    exact left.trans (settled.leaves trivial left.forgotten)

/-- When a removed cursor writes. Nothing brings it back but a replacement through it, and until
then it remembers its name, its parent and its value of the time when it was removed. Such a
replacement, through this cursor as through any other, fails without having written anything if
and only if nothing is found below the parent to take for what the cursor remembers. Below an
array this is an element that is the same as the remembered value, and it is overwritten, though
it may be an equal element that the cursor never stood for. -/
theorem removed_cursor_writes_what_it_finds {world : World} (run : Interfered world)
    (c : CursorId) (values : List Value) :
    (∀ {start}, Removed c start world → Leaves c start world) ∧
    (Unwritten world.store (Action.replace c values world) ↔
      ¬∃ parent, world.parent? c = some parent ∧ world.Finds c parent values) ∧
    ∀ {parent items}, world.parent? c = some parent →
      world.store.contents? (world.value parent) = some (.array items) →
      world.Finds c parent values →
      ∃ position item, items[position]? = some item ∧ item.same (world.value c) = true ∧
        (ended (Action.replace c values world)).store =
          world.store.modifyItems (world.value parent) fun _ => splice position 1 values items :=
  ⟨fun removed => removed.leaves, run.sound.replace_unwritten_iff c values,
    fun living array finds => run.sound.replace_writes_element living array finds⟩

/-- The cursor of the first of two equal elements, which was shifted out of the array, overwrites
the second. -/
theorem removed_cursor_overwrites_equal_element :
    ∃ start world, Removed 1 start world ∧
      ¬Unwritten world.store (Action.replace 1 [.null] world) := by
  have start := (Interfered.bare ⟨#[.array [.bool true, .bool true]]⟩ #[]).disturbed
    (.root (.composite 0))
  have asked := (Interfered.asked 0 (.get (.index 0)) start (by decide)
    (.inl ⟨.cursor 1, rfl⟩)).disturbed (.handles [0] (by decide))
  have removed : ∃ start, Removed 1 start ⟨⟨#[.array [.bool true]]⟩, #[
        ⟨.composite 0, none, none, 0, .empty, .empty⟩,
        ⟨.bool true, some 0, some (.index 0), 0, .empty, .empty⟩], #[], [0]⟩ := by
    refine ⟨_, .taken 0 .shift asked (rfl : kept? _ 0 (.index 0) = some 1) rfl (by decide)
      (.inl ⟨.value (some (.bool true)), rfl⟩) ⟨by decide, ?_⟩⟩
    rintro (_ | _ | _) name kept <;> cases kept
  obtain ⟨start, removed⟩ := removed
  refine ⟨start, _, removed, fun unwritten => ?_⟩
  refine (removed_cursor_writes_what_it_finds removed.interfered 1 [.null]).2.1.mp unwritten
    ⟨0, parent?_of_above? rfl (by simp [isAlive, isHeld]), .index 0, rfl, ?_⟩
  exact ⟨0, rfl, by decide⟩

end World

end CodeTree
