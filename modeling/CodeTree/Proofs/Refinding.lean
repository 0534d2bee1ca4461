/-
An element that has been moved behind the cursors' back is found again. Whatever was written to an
array, a cursor whose composite still occurs in it once is brought to that place when it is asked for
a replacement, and the replacement goes there and nowhere else. The other cursors that are kept for
the array may stand for what they no longer find; they are moved all the same, and none of them is
ever in the way, neither then nor in later edits of the array.
-/

import CodeTree.Proofs.Effects
import CodeTree.Proofs.Interference

namespace CodeTree

variable {after mid world : World} {c parent : CursorId} {items values written : List Value}
  {added position removed spare start : Nat} {move : SlotName → Option SlotName}

namespace SlotName

/-- The child that a splice brings to an index behind the new elements was behind the old ones. -/
theorem spliced_eq_index {place : Nat} {name : SlotName}
    (goes : spliced start removed added name = some (index place)) :
    ∃ position, name = index position ∧
      (position < start ∧ place = position ∨
        start + removed ≤ position ∧ place = position - removed + added) := by
  cases name with
  | key characters =>
    rw [spliced] at goes
    split at goes <;> cases goes
  | index position =>
    refine ⟨position, rfl, ?_⟩
    rw [spliced] at goes
    split at goes
    · cases goes
      exact .inl ⟨by assumption, rfl⟩
    · split at goes
      · cases goes
      · cases goes
        exact .inr ⟨by omega, rfl⟩

theorem spliced_behind (behind : start + removed ≤ position) :
    spliced start removed added (index position) = some (index (position - removed + added)) := by
  rw [spliced, if_neg (by omega), if_neg (by omega)]

end SlotName

namespace Store

/-- Of two writes to the same array, the second stays. -/
theorem modifyItems_modifyItems (store : Store) (value : Value) (earlier later : List Value) :
    (store.modifyItems value fun _ => earlier).modifyItems value (fun _ => later) =
      store.modifyItems value fun _ => later := by
  cases value with
  | composite id =>
    refine congrArg Store.mk (Array.ext_getElem? fun other => ?_)
    simp only [modifyItems, Array.getElem?_modify]
    split
    · rw [Option.map_map]
      congr 1
      funext contents
      cases contents <;> rfl
    · rfl
  | _ => rfl

end Store

namespace World

/-- Which cursors are alive has nothing to do with what is stored. -/
theorem isAlive_writeItems (world : World) (array : CursorId) (items : List Value)
    (c : CursorId) : (world.writeItems array items).isAlive c = world.isAlive c := by
  induction c using Nat.strongRecOn with
  | ind c ih =>
    rw [isAlive, isAlive]
    have above : ((world.writeItems array items).cursor c).parent? = (world.cursor c).parent? := rfl
    rw [above]
    congr 1
    cases (world.cursor c).parent? with
    | none => rfl
    | some parent =>
      dsimp only
      split
      · rw [ih parent ‹_›]
        rfl
      · rfl

theorem parent?_writeItems (world : World) (array : CursorId) (items : List Value)
    (c : CursorId) : (world.writeItems array items).parent? c = world.parent? c := by
  have above : ((world.writeItems array items).cursor c).parent? = (world.cursor c).parent? := rfl
  rw [parent?, parent?, above]
  simp only [isAlive_writeItems]

/-! ### Elements that give way -/

/-- The element at an index of an array has given way to values, whose cursors are given. Nothing
is said of whether other cursors stand for what they find. -/
structure Yielded (c parent : CursorId) (index : Nat) (values items : List Value)
    (before after : World) (cs : List CursorId) : Prop where
  sound : Sound after
  store : after.store = (before.writeItems parent (splice index 1 values items)).store
  held : after.held = before.held
  size : before.cursors.size ≤ after.cursors.size
  value : ∀ {d}, d < before.cursors.size → d ≠ c → after.value d = before.value d
  behind : ∀ {position d}, index < position → before.kept? parent (.index position) = some d →
    after.kept? parent (.index (position - 1 + values.length)) = some d
  within : ∀ {place d}, after.kept? parent (.index place) = some d →
    place < index + values.length ∨ ∃ position, index < position ∧
      before.kept? parent (.index position) = some d ∧ place = position - 1 + values.length
  count : cs.length = values.length
  first : ∀ {value}, values.head? = some value → cs.head? = some c ∧
    after.name? c = some (.index index) ∧
    after.value c = if (before.value c).same value then before.value c else value
  others : ∀ {place value}, values[place + 1]? = some value →
    ∃ d, cs[place + 1]? = some d ∧ after.name? d = some (.index (index + (place + 1))) ∧
      after.value d = value

/-- If an element gives way to a number of values, some other child has to bear a number that is no
index. One value moves nobody. -/
def Overflows (c parent : CursorId) (index count : Nat) (world : World) : Prop :=
  count ≠ 1 ∧ ∃ position d, d ≠ c ∧ index < position ∧
    world.kept? parent (.index position) = some d ∧ indexBound < position + count

section Yielded

variable {index : Nat} (inStep : InStep world c parent (.index index))
  (array : world.store.contents? (world.value parent) = some (.array items))
  (inside : index < items.length)

include inStep

theorem InStep.older : parent < c := inStep.sound.older inStep.above

theorem InStep.ne_behind {d : CursorId} (behind : index < position)
    (kept : world.kept? parent (.index position) = some d) : d ≠ c := by
  rintro rfl
  cases (inStep.sound.kept kept).2.1.symm.trans inStep.named
  exact Nat.lt_irrefl _ behind

theorem InStep.yielded_nil (rearranged : Rearranged (SlotName.spliced index 1 0) parent
      (world.writeItems parent (splice index 1 [] items)) mid) :
    Yielded c parent index [] items world ((mid.setValue c .null).forgetAll c) [] := by
  have apart : parent ≠ c := Nat.ne_of_lt inStep.older
  refine ⟨(rearranged.sound (inStep.sound.writeItems parent _)).clear c .null, rearranged.store,
    rearranged.held, ?_, ?_, ?_, ?_, rfl, nofun, nofun⟩
  · rw [size_clear, rearranged.size]
    exact Nat.le_refl _
  · intro d _ different
    rw [value_clear_other different, rearranged.value]
    rfl
  · intro position d behind kept
    rw [kept?_clear, if_neg apart]
    exact rearranged.entries.mpr ⟨_, kept, SlotName.spliced_behind behind⟩
  · intro place d kept
    rw [kept?_clear, if_neg apart] at kept
    obtain ⟨name, keptBefore, goes⟩ := rearranged.entries.mp kept
    obtain ⟨position, rfl, ⟨front, rfl⟩ | ⟨behind, rfl⟩⟩ := SlotName.spliced_eq_index goes
    · exact .inl (Nat.lt_add_right _ front)
    · exact .inr ⟨position, behind, keptBefore, rfl⟩

include array inside

theorem InStep.yielded_cons {first : Value} {rest : List Value}
    (rearranged : Rearranged (SlotName.spliced (index + 1) 0 rest.length) parent
      (world.writeItems parent (splice index 1 (first :: rest) items)) mid)
    (grown : Grown parent ((List.range' (index + 1) rest.length).map .index)
      (mid.revalue c first) after) :
    Yielded c parent index (first :: rest) items world after
      (c :: List.range' world.cursors.size rest.length) := by
  have sound := inStep.sound
  have apart : parent ≠ c := Nat.ne_of_lt inStep.older
  have young : c < world.cursors.size := lt_size_of_above? inStep.above
  have size : (mid.revalue c first).cursors.size = world.cursors.size := size_gaveWay rearranged
  have keptOld {place : Nat} (outside : place ≤ index ∨ index + 1 + rest.length ≤ place) :
      after.kept? parent (.index place) = mid.kept? parent (.index place) := by
    rw [grown.kept, kept?_revalue_other apart]
    intro _ inGap
    obtain ⟨position, early, same⟩ := mem_gap.mp inGap
    cases same
    omega
  refine ⟨?_, store_gaveWay rearranged grown, ?_, ?_, ?_, ?_, ?_, ?_, ?_, ?_⟩
  · refine grown.sound ((rearranged.sound (sound.writeItems parent _)).revalue c first) ?_
    rw [size]
    exact Nat.lt_trans inStep.older young
  · rw [grown.held]
    unfold revalue
    split <;> exact rearranged.held
  · rw [grown.size, size]
    exact Nat.le_add_right _ _
  · exact value_gaveWay_other rearranged grown
  · intro position d behind kept
    rw [List.length_cons, keptOld (.inr (by omega))]
    refine rearranged.entries.mpr ⟨_, kept, ?_⟩
    rw [SlotName.spliced_behind behind]
    congr 2
    omega
  · intro place d kept
    rw [List.length_cons]
    by_cases gap : place < index + (rest.length + 1)
    · exact .inl gap
    · rw [keptOld (.inr (by omega))] at kept
      obtain ⟨name, keptBefore, goes⟩ := rearranged.entries.mp kept
      obtain ⟨position, rfl, ⟨front, rfl⟩ | ⟨behind, rfl⟩⟩ := SlotName.spliced_eq_index goes
      · omega
      · exact .inr ⟨position, behind, keptBefore, by omega⟩
  · rw [List.length_cons, List.length_range', List.length_cons]
  · rintro value ⟨⟩
    refine ⟨rfl, ?_, ?_⟩
    · have keptMid : mid.kept? parent (.index index) = some c := by
        refine rearranged.entries.mpr ⟨_, inStep.kept, ?_⟩
        rw [SlotName.spliced, if_pos (Nat.lt_succ_self index)]
      have soundMid := (rearranged.sound (sound.writeItems parent _)).revalue c first
      have keptThere : (mid.revalue c first).kept? parent (.index index) = some c := by
        rw [kept?_revalue_other apart, keptMid]
      rw [grown.name (by rw [size]; exact young)]
      exact (soundMid.kept keptThere).2.1
    · have same : mid.value c = world.value c := rearranged.value c
      rw [grown.value (by rw [size]; exact young), revalue, same]
      split
      · exact same
      · exact value_clear_self (by rw [rearranged.size]; exact young) first
  · intro place value there
    rw [List.getElem?_cons_succ] at there
    obtain ⟨early, rfl⟩ := List.getElem?_eq_some_iff.mp there
    refine ⟨world.cursors.size + place, ?_, ?_,
      value_gaveWay_new array rearranged grown apart inside early⟩
    · rw [List.getElem?_cons_succ, List.getElem?_range' early, Nat.one_mul]
    · rw [← size]
      exact grown.nameNew (getElem?_gap early)

/-- An element whose cursor is in step gives way to values that are the same as themselves, unless
that moves another child too far. -/
theorem InStep.yields (proper : ∀ value ∈ values, value.isNaN = false)
    (room : ¬Overflows c parent index values.length world) :
    ∃ cs after, Action.replaceInStep c parent values world = .ok cs after ∧
      Yielded c parent index values items world after cs := by
  rw [Action.replaceInStep_array inStep.named array]
  cases values with
  | nil =>
    rcases Action.replaceElement_nil inStep array inside with
      ⟨mid, result, rearranged⟩ | ⟨_, position, d, _, _, behind, kept, beyond⟩
    · rw [SlotName.without_shifted_eq_spliced] at rearranged
      exact ⟨_, _, result, inStep.yielded_nil rearranged⟩
    · refine absurd ⟨by decide, position, d, inStep.ne_behind behind kept, behind, kept, ?_⟩ room
      rw [List.length_nil]
      omega
  | cons first rest =>
    rcases Action.replaceElement_cons inStep array inside first rest with
      ⟨mid, rearranged, ⟨improper, _⟩ | ⟨_, after, result, grown⟩⟩ |
        ⟨_, position, d, _, _, several, behind, kept, beyond⟩
    · rw [proper first List.mem_cons_self] at improper
      cases improper
    · rw [SlotName.shifted_eq_spliced] at rearranged
      exact ⟨_, after, result, inStep.yielded_cons array inside rearranged grown⟩
    · refine absurd ⟨?_, position, d, inStep.ne_behind behind kept, behind, kept, ?_⟩ room
      · exact fun single => several (List.length_eq_zero_iff.mp (Nat.succ.inj single))
      · rw [List.length_cons]
        omega

/-- An element does not give way if that moves another child too far. -/
theorem InStep.overflows (overflows : Overflows c parent index values.length world) :
    ∃ after, Action.replaceInStep c parent values world = .error (.fault .indexRange) after := by
  obtain ⟨several, position, d, _, behind, kept, beyond⟩ := overflows
  have written := inStep.sound.writeItems parent (splice index 1 values items)
  rw [Action.replaceInStep_array inStep.named array, Action.replaceElement_eq inStep array inside]
  cases values with
  | nil =>
    rw [List.length_nil] at beyond
    have keptStill : ((world.writeItems parent (splice index 1 [] items)).forget parent
        (.index index)).kept? parent (.index position) = some d := by
      rw [kept?_forget, if_neg fun both => ?_]
      · exact kept
      · cases both.2
        exact Nat.lt_irrefl _ behind
    obtain ⟨after, result⟩ := Action.moveElements_beyond (written.forget parent (.index index))
      (by decide : (-1 : Int) ≠ 0) behind keptStill (by omega)
    exact ⟨after, by simp only [Action.run_bind, Action.run_modify, result]⟩
  | cons first rest =>
    rw [List.length_cons] at beyond several
    have offset : (((first :: rest).length : Nat) : Int) - 1 = rest.length := by
      rw [List.length_cons]
      omega
    obtain ⟨after, result⟩ := Action.moveElements_beyond written
      (by omega : (rest.length : Int) ≠ 0) behind kept (by omega)
    exact ⟨after, by simp only [offset, Action.run_bind, result]⟩

end Yielded

/-! ### Finding an element again -/

/-- A cursor whose composite occurs once in the array of its parent is brought into step at that
place. The children elsewhere stay. -/
theorem Sound.repair_once (sound : Sound world) {old new : Nat} {id : CompositeId}
    (above : world.above? c = some parent) (named : world.name? c = some (.index old))
    (here : world.value c = .composite id)
    (array : world.store.contents? (world.value parent) = some (.array items))
    (there : items[new]? = some (.composite id))
    (once : ∀ {position}, items[position]? = some (.composite id) → position = new) :
    ∃ after, Action.repair c parent world = .ok () after ∧ InStep after c parent (.index new) ∧
      Alike world after ∧ ∀ {position d}, position ≠ new → d ≠ c →
        (after.kept? parent (.index position) = some d ↔
          world.kept? parent (.index position) = some d) := by
  have inside := sound.parent_lt_size above
  have slot (name : SlotName) : world.store.normalName (world.value parent) name = name :=
    Store.normalName_array array name
  cases agrees : (world.store.slot (world.value parent) (.index old)).same (world.value c) with
  | true =>
    have same : items[old]? = some (.composite id) := by
      rw [Store.slot_array array, here, Value.same_composite_right] at agrees
      cases found : items[old]? with
      | none =>
        rw [found] at agrees
        cases agrees
      | some item =>
        rw [found] at agrees
        exact congrArg some agrees
    obtain rfl := once same
    refine ⟨_, Action.repair_agrees sound above named agrees (slot _),
      Action.inStep_keep sound above named agrees (slot _), alike_keep _ _ _ _, ?_⟩
    intro position d elsewhere _
    rw [kept?_keep world inside, if_neg fun both => elsewhere (SlotName.index.inj both.2)]
  | false =>
    have foundAt : Store.position? items (world.value c) = some new := by
      cases found : Store.position? items (world.value c) with
      | none =>
        have differs := Store.position?_eq_none.mp found _ (List.mem_of_getElem? there)
        rw [here, Value.same_self rfl] at differs
        cases differs
      | some position =>
        obtain ⟨item, present, same⟩ := Store.position?_eq_some found
        rw [here, Value.same_composite_right] at same
        exact congrArg some (once (same ▸ present))
    refine ⟨_, Action.repair_found sound above named agrees array foundAt,
      Action.inStep_found sound above named array foundAt, alike_found _ _ _ _ _, ?_⟩
    intro position d elsewhere different
    refine ⟨fun kept => kept?_of_found inside kept different, fun kept => ?_⟩
    rw [World.found, kept?_keep, if_neg fun both => elsewhere (SlotName.index.inj both.2), kept?_rename,
      kept?_forgetOnly, if_neg fun gone => different ?_]
    · exact kept
    · rw [gone.2.1, gone.2.2] at kept
      exact (Option.some.inj kept).symm
    · rw [(alike_rename _ _ _).size, (alike_forgetOnly _ _ _ _).size]
      exact inside

/-! ### Later edits of the array -/

/-- A cursor stands at an array, and its kept elements can move up by a number of places. -/
structure Editable (parent : CursorId) (spare : Nat) (world : World) : Prop where
  sound : Sound world
  inside : parent < world.cursors.size
  array : ∃ items, world.store.items? (world.value parent) = some items
  room : ∀ {position d}, world.kept? parent (.index position) = some d →
    position + spare < indexBound

/-- Kept elements move up by at most a number of places. -/
def MovesUp (added : Nat) (move : SlotName → Option SlotName) : Prop :=
  ∀ name place, move name = some (.index place) →
    ∃ position, name = .index position ∧ place ≤ position + added

theorem movesUp_spliced (start removed added : Nat) :
    MovesUp added (SlotName.spliced start removed added) := by
  intro name place goes
  obtain ⟨position, rfl, ⟨_, rfl⟩ | ⟨_, rfl⟩⟩ := SlotName.spliced_eq_index goes
  · exact ⟨place, rfl, Nat.le_add_right _ _⟩
  · exact ⟨position, rfl, by omega⟩

theorem movesUp_some (added : Nat) : MovesUp added some := by
  rintro name place ⟨⟩
  exact ⟨place, rfl, Nat.le_add_right _ _⟩

theorem MovesUp.without (movesUp : MovesUp added move) (gone : SlotName) :
    MovesUp added (SlotName.without gone move) := by
  intro name place goes
  unfold SlotName.without at goes
  split at goes
  · cases goes
  · exact movesUp name place goes

section Editable

variable (editable : Editable parent (added + spare) world)

include editable

theorem Editable.rearranged (array : world.store.items? (world.value parent) = some items)
    (rearranged : Rearranged move parent (world.writeItems parent written) after)
    (movesUp : MovesUp added move) : Editable parent spare after where
  sound := rearranged.sound (editable.sound.writeItems parent written)
  inside := by
    rw [rearranged.size]
    exact editable.inside
  array := by
    refine ⟨written, ?_⟩
    rw [rearranged.store, rearranged.value]
    exact Store.items?_eq_some.mpr
      (Store.contents?_modifyItems_self (Store.items?_eq_some.mp array) _)
  room {place d} kept := by
    obtain ⟨name, keptBefore, goes⟩ := rearranged.entries.mp kept
    obtain ⟨position, rfl, bounded⟩ := movesUp name place goes
    have room : position + (added + spare) < indexBound := editable.room keptBefore
    omega

theorem Editable.moved {α : Type} {outcome : EStateM.Result (Halt EditError) World α} {answer : α}
    {offset : Int} (array : world.store.items? (world.value parent) = some items)
    (ends : EndsMoved outcome answer move offset parent (world.writeItems parent written))
    (bounded : offset ≤ added) (movesUp : MovesUp added move) :
    ∃ after, outcome = .ok answer after ∧ Editable parent spare after := by
  rcases ends with ⟨after, result, rearranged⟩ | ⟨_, position, d, _, _, kept, beyond⟩
  · exact ⟨after, result, editable.rearranged array rearranged movesUp⟩
  · have room : position + (added + spare) < indexBound := editable.room kept
    omega

end Editable

end World

namespace Operation

open World

/-- Asks a cursor for one thing after another. -/
def runAll (c : CursorId) : List Operation → Action Unit
  | [] => pure ()
  | operation :: rest => do
    let _ ← operation.run c
    runAll c rest

/-- An edit of an array is answered if the kept elements have room to move. -/
theorem edits {operation : Operation} (edit : operation.editsArray = true)
    (editable : Editable parent (operation.inserted.length + spare) world) :
    ∃ answer after, operation.run parent world = .ok answer after ∧
      Editable parent spare after := by
  obtain ⟨items, array⟩ := editable.array
  have sound := editable.sound
  have inside := editable.inside
  -- The answer of an edit is put into the answer of the operation.
  have answered {α : Type} {action : Action α} {answer : α} (wrap : α → Answer)
      (ends : ∃ after, action world = .ok answer after ∧ Editable parent spare after) :
      ∃ answer after, (wrap <$> action) world = .ok answer after ∧ Editable parent spare after := by
    obtain ⟨after, result, later⟩ := ends
    exact ⟨wrap answer, after, by rw [Action.run_map, result], later⟩
  cases operation with
  | shift =>
    cases items with
    | nil =>
      refine answered .value ⟨_, Action.shift_nil array, ?_⟩
      have forgotten := alike_forget world parent .length
      refine ⟨sound.forget parent .length, by rw [forgotten.size]; exact inside, ?_, ?_⟩
      · rw [forgotten.store, forgotten.value]
        exact ⟨[], array⟩
      · intro position d kept
        rw [kept?_forget, if_neg fun both => SlotName.index_ne_length _ both.2] at kept
        have room := editable.room kept
        rwa [inserted, List.length_nil, Nat.zero_add] at room
    | cons first rest =>
      refine answered .value (editable.moved array (Action.shift_cons sound inside array)
        (by omega) ?_)
      rw [SlotName.without_shifted_eq_spliced]
      exact movesUp_spliced 0 1 0
  | unshift values =>
    refine answered .count (editable.moved array (Action.unshift_some sound inside array values)
      (Int.le_refl _) ?_)
    rw [SlotName.shifted_eq_spliced]
    exact movesUp_spliced _ _ _
  | push values =>
    obtain ⟨after, result, rearranged⟩ := Action.push_some sound array values
    exact answered .count ⟨after, result,
      editable.rearranged array rearranged ((movesUp_some _).without _)⟩
  | pop =>
    obtain ⟨after, result, rearranged⟩ := Action.pop_some sound array
    refine answered .value ⟨after, result, editable.rearranged array rearranged ?_⟩
    unfold Action.popMove
    split
    · exact (movesUp_some _).without _
    · exact ((movesUp_some _).without _).without _
  | insertAt index values =>
    by_cases nothing : values = []
    · subst nothing
      refine answered (fun _ => .done) ⟨world, Action.insertAt_nil array index, ?_⟩
      rwa [inserted, List.length_nil, Nat.zero_add] at editable
    · refine answered (fun _ => .done) (editable.moved array
        (Action.insertAt_some sound inside array index nothing) (Int.le_refl _) ?_)
      rw [SlotName.shifted_eq_spliced]
      exact movesUp_spliced _ _ _
  | _ => cases edit

/-- Any number of edits of an array are answered. -/
theorem runAll_edits {operations : List Operation}
    (edit : ∀ operation ∈ operations, operation.editsArray = true)
    (editable : Editable parent (operations.flatMap inserted).length world) :
    ∃ after, runAll parent operations world = .ok () after := by
  induction operations generalizing world with
  | nil => exact ⟨world, rfl⟩
  | cons operation rest ih =>
    rw [List.flatMap_cons, List.length_append] at editable
    obtain ⟨answer, mid, result, later⟩ := edits (edit operation List.mem_cons_self) editable
    obtain ⟨after, onward⟩ :=
      ih (fun other member => edit other (List.mem_cons_of_mem _ member)) later
    refine ⟨after, ?_⟩
    rw [runAll, Action.run_bind, result]
    exact onward

end Operation

namespace World

/-- Whatever has been written to an array behind its cursors' back, a cursor of one of its elements
whose composite occurs there exactly once is found again. Unless a replacement through it would move
another child beyond the last index, in which case it ends with a fault, it is answered, puts the
values exactly in that place and writes nothing else, and gives a cursor for each value, under the
name of its index, the first being the cursor itself. Edits of the array are answered ever after, as
long as there is room for the children to move. -/
theorem moved_element_refound {world : World} (run : Interfered world) {c parent : CursorId}
    {old new : Nat} {id : CompositeId} {items contents : List Value}
    (living : world.parent? c = some parent) (named : world.name? c = some (.index old))
    (here : world.value c = .composite id)
    (array : world.store.contents? (world.value parent) = some (.array items))
    (there : contents[new]? = some (.composite id))
    (once : ∀ {position}, contents[position]? = some (.composite id) → position = new)
    {values : List Value} (proper : ∀ value ∈ values, value.isNaN = false) :
    (Overflows c parent new values.length world → ∃ after,
      Action.replace c values (world.writeItems parent contents) =
        .error (.fault .indexRange) after) ∧
    (¬Overflows c parent new values.length world → ∃ cs after,
      Action.replace c values (world.writeItems parent contents) = .ok cs after ∧
      after.store = (world.writeItems parent (splice new 1 values contents)).store ∧
      after.store.contents? (after.value parent) = some (.array (splice new 1 values contents)) ∧
      cs.length = values.length ∧ (values ≠ [] → cs.head? = some c) ∧
      (∀ {place value}, values[place]? = some value → ∃ d, cs[place]? = some d ∧
        after.name? d = some (.index (new + place)) ∧ after.value d = value) ∧
      ∀ operations : List Operation, (∀ operation ∈ operations, operation.editsArray = true) →
        contents.length + values.length + (operations.flatMap Operation.inserted).length ≤
          indexBound →
        (∀ {position d}, world.kept? parent (.index position) = some d → d ≠ c →
          position + values.length + (operations.flatMap Operation.inserted).length < indexBound) →
        ∃ final, Operation.runAll parent operations after = .ok () final) := by
  have above := above?_of_parent? living
  have young := lt_size_of_above? above
  have older : parent < c := run.sound.older above
  have inside : new < contents.length := (List.getElem?_eq_some_iff.mp there).1
  have written : (world.writeItems parent contents).store.contents? (world.value parent) =
      some (.array contents) := Store.contents?_modifyItems_self array _
  -- The views of the cursor are forgotten first, which nothing else notices.
  have alike := alike_withoutViews (world.writeItems parent contents) c
  obtain ⟨mid, repaired, inStep, alikeMid, others⟩ :=
    ((run.sound.writeItems parent contents).withoutViews c).repair_once
      ((alike.above c).trans above) ((name?_withoutViews _ c c).trans named)
      ((alike.value c).trans here) ((contents?_withoutViews _ c parent).trans written) there once
  have same := alike.trans alikeMid
  have stay {position : Nat} {d : CursorId} (elsewhere : position ≠ new) (different : d ≠ c) :
      mid.kept? parent (.index position) = some d ↔
        world.kept? parent (.index position) = some d := by
    rw [others elsewhere different, kept?_withoutViews]
    rfl
  have overflow : Overflows c parent new values.length mid ↔
      Overflows c parent new values.length world := by
    refine and_congr_right fun _ => exists_congr fun position => exists_congr fun d => ?_
    refine and_congr_right fun different => and_congr_right fun behind => ?_
    rw [stay (Nat.ne_of_gt behind) different]
  have arrayMid : mid.store.contents? (mid.value parent) = some (.array contents) := by
    rw [same.store, same.value]
    exact written
  have replaced : Action.replace c values (world.writeItems parent contents) =
      Action.replaceInStep c parent values mid := by
    rw [Action.replace_of_some ((parent?_writeItems world parent contents c).trans living), repaired]
  rw [replaced]
  refine ⟨fun overflows => inStep.overflows arrayMid inside (overflow.mpr overflows), fun room => ?_⟩
  obtain ⟨cs, after, result, yielded⟩ := inStep.yields arrayMid inside proper (mt overflow.mp room)
  have store : after.store = (world.writeItems parent (splice new 1 values contents)).store := by
    rw [yielded.store, writeItems, same.store, same.value]
    exact Store.modifyItems_modifyItems _ _ _ _
  have valueParent : after.value parent = world.value parent := by
    rw [yielded.value (by rw [same.size]; exact Nat.lt_trans older young) (Nat.ne_of_lt older),
      same.value]
    rfl
  have arrayAfter : after.store.contents? (after.value parent) =
      some (.array (splice new 1 values contents)) := by
    rw [store, valueParent]
    exact Store.contents?_modifyItems_self array _
  refine ⟨cs, after, result, store, arrayAfter, yielded.count, ?_, ?_, ?_⟩
  · intro some
    obtain ⟨value, rest, rfl⟩ := List.exists_cons_of_ne_nil some
    exact (yielded.first rfl).1
  · intro place value given
    cases place with
    | zero =>
      rw [← List.head?_eq_getElem?] at given
      obtain ⟨first, bears, holds⟩ := yielded.first given
      refine ⟨c, List.head?_eq_getElem?.symm.trans first, bears, holds.trans ?_⟩
      -- A composite is the same as itself alone.
      have kept : mid.value c = .composite id := (same.value c).trans here
      rw [kept]
      split
      · rename_i equal
        exact (Value.same_composite_left.mp equal).symm
      · rfl
    | succ place => exact yielded.others given
  · intro operations edit fits spare
    refine Operation.runAll_edits edit ⟨yielded.sound, ?_, ?_, ?_⟩
    · exact Nat.lt_of_lt_of_le (by rw [same.size]; exact Nat.lt_trans older young) yielded.size
    · exact ⟨_, Store.items?_eq_some.mpr arrayAfter⟩
    · intro place d kept
      rcases yielded.within kept with front | ⟨position, behind, before, rfl⟩
      · omega
      · have different := inStep.ne_behind behind before
        have bounded := spare ((stay (Nat.ne_of_gt behind) different).mp before) different
        omega

/-- An array of one object, with cursors for the object and for the last index there can be. -/
def crowded : World :=
  ⟨⟨#[.array [.composite 1], .object .empty]⟩, #[
    ⟨.composite 0, none, none, 0,
      ⟨[(.index 0, 1), (.index 18446744073709551615, 2)], by decide⟩, .empty⟩,
    ⟨.composite 1, some 0, some (.index 0), 0, .empty, .empty⟩,
    ⟨.null, some 0, some (.index 18446744073709551615), 0, .empty, .empty⟩], #[], [0]⟩

/-- The object is moved by one place. One value takes its new place, and two have no room. -/
theorem crowded_element_refound : Interfered crowded ∧
    (∃ after, Action.replace 1 [.bool true, .bool false]
      (crowded.writeItems 0 [.null, .composite 1]) = .error (.fault .indexRange) after) ∧
    ∃ cs after, Action.replace 1 [.bool true] (crowded.writeItems 0 [.null, .composite 1]) =
      .ok cs after ∧ after.store.contents? (after.value 0) = some (.array [.null, .bool true]) := by
  have start := (Interfered.bare ⟨#[.array [.composite 1], .object .empty]⟩ #[]).disturbed
    (.root (.composite 0))
  have asked : Interfered { crowded with held := [] } :=
    .asked 0 (.get (.index 18446744073709551615))
      (.asked 0 (.get (.index 0)) start (by decide) (.inl ⟨.cursor 1, rfl⟩))
      (by decide) (.inl ⟨.cursor 2, rfl⟩)
  have held : Interfered crowded := asked.disturbed (.handles [0] (by decide))
  have living : crowded.parent? 1 = some 0 :=
    parent?_of_above? rfl (by simp [isAlive, isHeld, crowded])
  have once {position : Nat}
      (there : [Value.null, .composite 1][position]? = some (.composite 1)) : position = 1 := by
    cases position with
    | zero => cases there
    | succ position =>
      cases position with
      | zero => rfl
      | succ position => cases there
  have overflows : Overflows 1 0 1 2 crowded :=
    ⟨by decide, 18446744073709551615, 2, by decide, by decide, rfl, by decide⟩
  have single : ∀ value ∈ [Value.bool true], value.isNaN = false := by decide
  have double : ∀ value ∈ [Value.bool true, .bool false], value.isNaN = false := by decide
  obtain ⟨cs, after, result, _, contents, _⟩ :=
    (moved_element_refound held living rfl rfl rfl rfl once single).2 fun beyond => beyond.1 rfl
  exact ⟨held, (moved_element_refound held living rfl rfl rfl rfl once double).1 overflows,
    cs, after, result, contents⟩

end World

end CodeTree
