/-
Replacing the elements of an array while going through them. The cursors of all elements are found
before the first has its turn, and each replacement moves the cursors that still wait by a number of
places. Nevertheless every element has its turn once and in order, and in the end each has given way
to its replacements: going through an array is a map, and what it leaves is their concatenation.
-/

import CodeTree.Proofs.Refinding
import CodeTree.Proofs.Visiting

namespace CodeTree

variable {world : World} {origin : Store} {holder : Value} {c : CursorId} {ds : List CursorId}
  {done items rest : List Value}

instance {τ : Type} : HasWorld (World × τ) := ⟨Prod.fst, fun state world => (world, state.2)⟩

namespace World

/-! ### Finding the elements -/

/-- The cursors that a cursor keeps for the elements of an array stand for them. -/
def Reflects (c : CursorId) (items : List Value) (world : World) : Prop :=
  ∀ {position d item}, world.kept? c (.index position) = some d → items[position]? = some item →
    world.value d = item

/-- From one world to another, cursors of elements have been asked for. -/
structure Listed (c : CursorId) (items : List Value) (before after : World) : Prop where
  sound : Sound after
  reflects : Reflects c items after
  store : after.store = before.store
  held : after.held = before.held
  size : before.cursors.size ≤ after.cursors.size
  value : ∀ {d}, d < before.cursors.size → after.value d = before.value d
  stays : ∀ {position d}, before.kept? c (.index position) = some d →
    after.kept? c (.index position) = some d
  news : ∀ {position d}, after.kept? c (.index position) = some d →
    before.kept? c (.index position) = some d ∨ position < items.length

theorem Listed.trans {first second third : World} (left : Listed c items first second)
    (right : Listed c items second third) : Listed c items first third where
  sound := right.sound
  reflects := right.reflects
  store := right.store.trans left.store
  held := right.held.trans left.held
  size := Nat.le_trans left.size right.size
  value old := (right.value (Nat.lt_of_lt_of_le old left.size)).trans (left.value old)
  stays kept := right.stays (left.stays kept)
  news kept := (right.news kept).elim left.news .inr

section Listing

variable (sound : Sound world) (inside : c < world.cursors.size)
  (array : world.store.contents? (world.value c) = some (.array items))
  (proper : ∀ item ∈ items, item.isNaN = false) (reflects : Reflects c items world)

include sound inside array proper reflects

/-- Asking for an element gives the cursor that is kept for it, or a new one. -/
theorem listed_child {position : Nat} (within : position < items.length) :
    Listed c items world (world.child c (.index position)).2 := by
  have here := List.getElem?_eq_getElem within
  have found := world.child_cases c (.index position)
  rw [Store.normalName_array array, Store.slot_array array, here, Option.getD_some] at found
  rcases found with ⟨d, kept, _, result⟩ | ⟨stale, result⟩
  · rw [result]
    exact ⟨sound, reflects, rfl, rfl, Nat.le_refl _, fun _ => rfl, id, .inl⟩
  · -- What is kept for an element would have been found for it.
    have free : world.kept? c (.index position) = none := by
      refine Option.eq_none_iff_forall_ne_some.mpr fun d kept => ?_
      have differs := stale d kept
      rw [reflects kept here, Value.same_self (proper _ (List.getElem_mem within))] at differs
      cases differs
    have soundAfter := sound.child inside (.index position)
    have keptAfter (other : Nat) :
        (world.addChild c (.index position) items[position]).2.kept? c (.index other) =
          if other = position then some world.cursors.size else world.kept? c (.index other) := by
      rw [kept?_addChild world _ _ inside]
      simp only [true_and, SlotName.index.injEq]
    rw [result] at soundAfter ⊢
    refine ⟨soundAfter, ?_, rfl, rfl, ?_, ?_, ?_, ?_⟩
    · intro other d item kept there
      rw [keptAfter] at kept
      rw [value_addChild]
      split at kept
      · rename_i same
        cases kept
        rw [same, here] at there
        rw [if_pos rfl]
        exact Option.some.inj there
      · rw [if_neg (Nat.ne_of_lt (sound.kept kept).2.2)]
        exact reflects kept there
    · rw [size_addChild]
      exact Nat.le_succ _
    · intro d old
      rw [value_addChild, if_neg (Nat.ne_of_lt old)]
    · intro other d kept
      rw [keptAfter, if_neg ?_]
      · exact kept
      · rintro rfl
        rw [free] at kept
        cases kept
    · intro other d kept
      rw [keptAfter] at kept
      split at kept
      · rename_i same
        exact .inr (same ▸ within)
      · exact .inl kept

theorem listed_childrenAt {start count : Nat} (within : start + count ≤ items.length) :
    Listed c items world (world.childrenAt c ((List.range' start count).map .index)).2 ∧
    (world.childrenAt c ((List.range' start count).map .index)).1.length = count ∧
    ∀ {place d}, (world.childrenAt c ((List.range' start count).map .index)).1[place]? = some d →
      (world.childrenAt c ((List.range' start count).map .index)).2.kept? c
        (.index (start + place)) = some d := by
  induction count generalizing world start with
  | zero =>
    exact ⟨⟨sound, reflects, rfl, rfl, Nat.le_refl _, fun _ => rfl, id, .inl⟩, rfl, nofun⟩
  | succ count ih =>
    have first := listed_child sound inside array proper reflects (by omega : start < items.length)
    have kept := (child_spec inside (.index start)).1
    rw [Store.normalName_array array] at kept
    rw [List.range'_succ, List.map_cons, childrenAt]
    obtain ⟨rest, length, lists⟩ := @ih _ first.sound (Nat.lt_of_lt_of_le inside first.size)
      (by rw [first.value inside, first.store]; exact array) first.reflects (start + 1) (by omega)
    refine ⟨first.trans rest, congrArg Nat.succ length, ?_⟩
    intro place d there
    cases place with
    | zero =>
      cases there
      exact rest.stays kept
    | succ place =>
      rw [← Nat.add_assoc, Nat.add_right_comm]
      exact lists there

end Listing

/-! ### Giving each element its turn -/

/-- Some elements of an array have given way to what a function makes of them, and the cursors of
the others wait for their turn. The children behind have room to move. -/
structure Stage (f : Value → List Value) (c : CursorId) (origin : Store) (holder : Value)
    (done rest : List Value) (ds : List CursorId) (world : World) : Prop where
  sound : Sound world
  held : c ∈ world.held
  value : world.value c = holder
  store : world.store = origin.modifyItems holder fun _ => done ++ rest
  count : ds.length = rest.length
  waits : ∀ {place d}, ds[place]? = some d →
    world.kept? c (.index (done.length + place)) = some d ∧ rest[place]? = some (world.value d)
  room : ∀ {position d}, done.length ≤ position → world.kept? c (.index position) = some d →
    position + (rest.flatMap f).length ≤ indexBound

section Stage

variable {f : Value → List Value} {d : CursorId} {item : Value}

theorem Stage.release (stage : Stage f c origin holder done rest ds world) (other : c ≠ d) :
    Stage f c origin holder done rest ds (world.release d) where
  sound := stage.sound.around _ fun _ member => stage.sound.held (List.mem_of_mem_erase member)
  held := (List.mem_erase_of_ne other).mpr stage.held
  value := stage.value
  store := stage.store
  count := stage.count
  waits := stage.waits
  room := stage.room

variable (array : origin.contents? holder = some (.array items))
  (stage : Stage f c origin holder done (item :: rest) (d :: ds) world)

include stage

/-- The next cursor stands for the next element. -/
theorem Stage.next : world.kept? c (.index done.length) = some d ∧ world.value d = item := by
  obtain ⟨kept, stands⟩ := stage.waits (rfl : (d :: ds)[0]? = some d)
  exact ⟨kept, (Option.some.inj stands).symm⟩

include array

/-- The next element gives way to what the function makes of it. -/
theorem Stage.step (proper : item.isNaN = false)
    (properToo : ∀ value ∈ f item, value.isNaN = false) :
    ∃ cs after, Action.replace d (f item) world = .ok cs after ∧
      Stage f c origin holder (done ++ f item) rest ds after := by
  obtain ⟨kept, stands⟩ := stage.next
  obtain ⟨above, named, young⟩ := stage.sound.kept kept
  have older : c < d := stage.sound.older above
  have contents : world.store.contents? (world.value c) = some (.array (done ++ item :: rest)) := by
    rw [stage.value, stage.store]
    exact Store.contents?_modifyItems_self array _
  have here : (done ++ item :: rest)[done.length]? = some item := by simp
  -- The views of the cursor are forgotten first. It is in step already.
  have alike := alike_withoutViews world d
  have keptMid := (kept?_withoutViews world d c (.index done.length)).trans kept
  have agrees : ((world.withoutViews d).store.slot ((world.withoutViews d).value c)
      (.index done.length)).same ((world.withoutViews d).value d) = true := by
    rw [alike.store, alike.value, alike.value, Store.slot_array contents, here, stands]
    exact Value.same_self proper
  have normal : (world.withoutViews d).store.normalName ((world.withoutViews d).value c)
      (.index done.length) = .index done.length := by
    rw [alike.store, alike.value, Store.normalName_array contents]
  have soundMid := stage.sound.withoutViews d
  have inStep : InStep (world.withoutViews d) d c (.index done.length) :=
    ⟨soundMid, (soundMid.kept keptMid).1, (soundMid.kept keptMid).2.1, keptMid, normal, agrees⟩
  have repaired := Action.repair_agrees soundMid inStep.above inStep.named agrees normal
  rw [keep_of_kept? keptMid] at repaired
  have room : ¬Overflows d c done.length (f item).length (world.withoutViews d) := by
    rintro ⟨_, position, e, _, behind, keptThere, beyond⟩
    rw [kept?_withoutViews] at keptThere
    have bound := stage.room (Nat.le_of_lt behind) keptThere
    rw [List.flatMap_cons, List.length_append] at bound
    omega
  obtain ⟨cs, after, result, yielded⟩ :=
    inStep.yields ((contents?_withoutViews world d c).trans contents) (by simp) properToo room
  have size : (world.withoutViews d).cursors.size = world.cursors.size := alike.size
  have still {e : CursorId} (inside : e < world.cursors.size) (other : e ≠ d) :
      after.value e = world.value e :=
    (yielded.value (by rw [size]; exact inside) other).trans (alike.value e)
  have living := parent?_of_above? above (isAlive_of_isHeld (isHeld_of_mem stage.held))
  refine ⟨cs, after, ?_, yielded.sound, ?_, ?_, ?_, ?_, ?_, ?_⟩
  · rw [Action.replace_of_some living, repaired]
    exact result
  · rw [yielded.held]
    exact stage.held
  · rw [still (Nat.lt_trans older young) (Nat.ne_of_lt older), stage.value]
  · rw [yielded.store, writeItems, alike.store, alike.value, stage.value, stage.store,
      Store.modifyItems_modifyItems]
    simp [splice]
  · exact Nat.succ.inj stage.count
  · intro place e there
    obtain ⟨keptThere, waits⟩ := stage.waits (show (d :: ds)[place + 1]? = some e from there)
    have behind : done.length < done.length + (place + 1) := by omega
    rw [← kept?_withoutViews world d] at keptThere
    have moved := yielded.behind behind keptThere
    rw [still ?_ (inStep.ne_behind behind keptThere)]
    · refine ⟨?_, waits⟩
      rw [List.length_append, ← moved]
      congr 2
      omega
    · rw [← size]
      exact (soundMid.kept keptThere).2.2
  · intro place e behind keptAfter
    rw [List.length_append] at behind
    rcases yielded.within keptAfter with front | ⟨position, beyond, keptBefore, rfl⟩
    · omega
    · rw [kept?_withoutViews] at keptBefore
      have bound := stage.room (Nat.le_of_lt beyond) keptBefore
      rw [List.flatMap_cons, List.length_append] at bound
      omega

end Stage

/-- Replaces what stands at a cursor by what a function makes of it, and notes what the function was
given. -/
def substitute (f : Value → List Value) (c : CursorId) :
    EStateM (Halt EditError) (World × List Value) Unit := fun state =>
  match Action.replace c (f (state.1.value c)) state.1 with
  | .ok _ after => .ok () (after, state.2 ++ [state.1.value c])
  | .error halt after => .error halt (after, state.2 ++ [state.1.value c])

/-- All elements have their turns. -/
theorem Stage.turns {f : Value → List Value} (array : origin.contents? holder = some (.array items))
    (stage : Stage f c origin holder done rest ds world)
    (proper : ∀ item ∈ rest, item.isNaN = false ∧ ∀ value ∈ f item, value.isNaN = false)
    (given : List Value) :
    ∃ after, HasWorld.turns (substitute f) ds (world, given) = .ok () (after, given ++ rest) ∧
      Stage f c origin holder (done ++ rest.flatMap f) [] [] after := by
  induction rest generalizing world done ds given with
  | nil =>
    obtain rfl := List.length_eq_zero_iff.mp stage.count
    refine ⟨world, ?_, ?_⟩
    · rw [List.append_nil]
      rfl
    · rw [List.flatMap_nil, List.append_nil]
      exact stage
  | cons item rest ih =>
    obtain ⟨d, ds, rfl⟩ := List.exists_cons_of_length_eq_add_one stage.count
    obtain ⟨properHere, properRest⟩ := List.forall_mem_cons.mp proper
    obtain ⟨kept, stands⟩ := stage.next
    obtain ⟨cs, mid, result, stageMid⟩ := stage.step array properHere.1 properHere.2
    have older : c < d := stage.sound.older (stage.sound.kept kept).1
    obtain ⟨after, onward, stageAfter⟩ := ih
      (stageMid.release (Nat.ne_of_lt older)) properRest (given ++ [item])
    refine ⟨after, ?_, ?_⟩
    · simp only [HasWorld.turns, substitute, stands, result]
      rw [List.append_assoc] at onward
      exact onward
    · rw [List.flatMap_cons, ← List.append_assoc]
      exact stageAfter

theorem flatMap_eq_filter {f : Value → List Value} {gone : Value → Bool}
    (removes : ∀ item, f item = if gone item then [] else [item]) (items : List Value) :
    items.flatMap f = items.filter fun item => !gone item := by
  induction items with
  | nil => rfl
  | cons item rest ih =>
    rw [List.flatMap_cons, removes, ih, List.filter_cons]
    cases gone item <;> rfl

/-- Replacing each element of an array by what a function makes of it. Whatever is stored and kept,
if the cursors that are kept for the elements stand for them, the function is given every element
once and in order, nothing fails, and the array holds in the end what the function has made of its
elements, one after another. So where the function makes nothing of some elements and leaves the
others, the others are left. Cursors may be kept beyond the end of the array. They stand for no
element and are moved along, for which there has to be room; where none is kept there, `room` asks
for nothing. -/
theorem each_replaced_flatMaps {world : World} (run : Interfered world) {c : CursorId}
    (held : c ∈ world.held) {items : List Value}
    (array : world.store.contents? (world.value c) = some (.array items))
    (reflects : Reflects c items world) {f : Value → List Value}
    (proper : ∀ item ∈ items, item.isNaN = false ∧ ∀ value ∈ f item, value.isNaN = false)
    (fits : items.length + (items.flatMap f).length ≤ indexBound)
    (room : ∀ {position d}, world.kept? c (.index position) = some d → items.length ≤ position →
      position + (items.flatMap f).length ≤ indexBound) (given : List Value) :
    ∃ after, HasWorld.each c (substitute f) (world, given) = .ok () (after, given ++ items) ∧
      after.store = (world.writeItems c (items.flatMap f)).store ∧
      after.store.contents? (after.value c) = some (.array (items.flatMap f)) ∧
      ∀ gone : Value → Bool, (∀ item, f item = if gone item then [] else [item]) →
        after.store.contents? (after.value c) = some (.array (items.filter fun item => !gone item)) := by
  have inside := run.sound.held held
  obtain ⟨listed, length, lists⟩ := listed_childrenAt run.sound inside array
    (fun item member => (proper item member).1) reflects (Nat.le_of_eq (Nat.zero_add items.length))
  have elements : world.elements c =
      world.childrenAt c ((List.range' 0 items.length).map .index) := by
    rw [World.elements, Store.items?_eq_some.mpr array, Option.getD_some, List.range_eq_range']
  rw [← elements] at listed length lists
  have stage : Stage f c world.store (world.value c) [] items (world.elements c).1
      ((world.elements c).2.holdAll (world.elements c).1) := by
    rw [holdAll_eq]
    refine ⟨listed.sound.around _ ?_, ?_, listed.value inside, ?_, length, ?_, ?_⟩
    · intro d member
      rcases List.mem_append.mp member with new | old
      · obtain ⟨place, there⟩ := List.mem_iff_getElem?.mp (List.mem_reverse.mp new)
        exact (listed.sound.kept (lists there)).2.2
      · exact listed.sound.held old
    · refine List.mem_append_right _ ?_
      rw [listed.held]
      exact held
    · rw [List.nil_append, Store.modifyItems_of_fixed array rfl]
      exact listed.store
    · intro place d there
      have within : place < items.length :=
        length ▸ (List.getElem?_eq_some_iff.mp there).1
      have kept := lists there
      rw [Nat.zero_add] at kept
      refine ⟨by rw [List.length_nil, Nat.zero_add]; exact kept, ?_⟩
      have here := List.getElem?_eq_getElem within
      exact here.trans (congrArg some (listed.reflects kept here).symm)
    · intro position d _ kept
      by_cases within : position < items.length
      · omega
      · exact room ((listed.news kept).resolve_right within) (Nat.le_of_not_lt within)
  obtain ⟨after, ended, done⟩ := stage.turns array proper given
  have store : after.store = (world.writeItems c (items.flatMap f)).store := by
    rw [done.store, List.append_nil]
    rfl
  have contents : after.store.contents? (after.value c) = some (.array (items.flatMap f)) := by
    rw [store, done.value]
    exact Store.contents?_modifyItems_self array _
  refine ⟨after, ended, store, contents, fun gone removes => ?_⟩
  rw [contents, flatMap_eq_filter removes]

/-- Doubles a value, or drops it. -/
def doubled : Value → List Value
  | .bool false => []
  | value => [value, value]

/-- Of three elements the outer ones are doubled and the inner one, whose cursor is kept, goes. -/
theorem each_doubled_outer : ∃ world after, Interfered world ∧
    HasWorld.each 0 (substitute doubled) (world, []) =
      .ok () (after, [.bool true, .bool false, .null]) ∧
    after.store.contents? (after.value 0) = some (.array [.bool true, .bool true, .null, .null]) := by
  have start := (Interfered.bare ⟨#[.array [.bool true, .bool false, .null]]⟩ #[]).disturbed
    (.root (.composite 0))
  have asked : Interfered ⟨⟨#[.array [.bool true, .bool false, .null]]⟩, #[
        ⟨.composite 0, none, none, 0, ⟨[(.index 1, 1)], by decide⟩, .empty⟩,
        ⟨.bool false, some 0, some (.index 1), 0, .empty, .empty⟩], #[], []⟩ :=
    .asked 0 (.get (.index 1)) start (by decide) (.inl ⟨.cursor 1, rfl⟩)
  have held := asked.disturbed (.handles [0] (by decide))
  obtain ⟨after, ended, _, contents, _⟩ := @each_replaced_flatMaps _ held 0 List.mem_cons_self
    [.bool true, .bool false, .null] rfl (fun {position d item} kept there => by
      match position, kept, there with
      | 1, rfl, rfl => rfl) doubled (by decide) (by decide)
    (fun {position d} kept beyond => by
      match position, kept, beyond with
      | 1, rfl, beyond => exact absurd beyond (by decide)) []
  exact ⟨_, after, held, ended, contents⟩

end World

end CodeTree
