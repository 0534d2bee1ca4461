/-
Collecting the cursors of a value's children, whatever the kept cursors remember. Here the cursors
need not fit the tree: a child that is kept for something else than its slot holds is passed over
for a new one. What is found for a slot stands below the cursor of the value, under the name of the
slot, and it stands for what was in the slot, or for nothing that a walk could enter.

To collect the children of an object may fill in defaults. That writes to the object alone, so that
nothing that stands in its slots is touched; and a visit of one child touches nothing in the others.
-/

import CodeTree.Proofs.Filling
import CodeTree.Proofs.Looking
import CodeTree.Visitor.Walk

namespace CodeTree

variable {after world : World} {before mid origin store : Store} {holder part value : Value}
  {c d : CursorId} {members : Assoc String Value} {names path : List SlotName} {name : SlotName}

namespace World

/-! ### Cursors that stay -/

/-- From one world to another, the cursors that were there stay as they were. -/
structure Keeps (before after : World) : Prop where
  size : before.cursors.size ≤ after.cursors.size
  value : ∀ {d}, d < before.cursors.size → after.value d = before.value d
  above : ∀ {d}, d < before.cursors.size → after.above? d = before.above? d
  name : ∀ {d}, d < before.cursors.size → after.name? d = before.name? d
  origin : ∀ {d}, d < before.cursors.size → after.origin d = before.origin d

theorem Keeps.refl (world : World) : Keeps world world :=
  ⟨Nat.le_refl _, fun _ => rfl, fun _ => rfl, fun _ => rfl, fun _ => rfl⟩

theorem Keeps.trans {first second third : World} (left : Keeps first second)
    (right : Keeps second third) : Keeps first third where
  size := Nat.le_trans left.size right.size
  value inside := (right.value (Nat.lt_of_lt_of_le inside left.size)).trans (left.value inside)
  above inside := (right.above (Nat.lt_of_lt_of_le inside left.size)).trans (left.above inside)
  name inside := (right.name (Nat.lt_of_lt_of_le inside left.size)).trans (left.name inside)
  origin inside := (right.origin (Nat.lt_of_lt_of_le inside left.size)).trans (left.origin inside)

/-- What is held and what is stored is nothing to the cursors. -/
theorem Keeps.around {before : World} (keeps : Keeps before after) (store storeAfter : Store)
    (held heldAfter : List CursorId) :
    Keeps { before with store, held } { after with store := storeAfter, held := heldAfter } :=
  ⟨keeps.size, keeps.value, keeps.above, keeps.name, keeps.origin⟩

theorem Sound.around (sound : Sound world) (store : Store) {held : List CursorId}
    (inside : ∀ c ∈ held, c < world.cursors.size) : Sound { world with store, held } :=
  ⟨sound.older, sound.named, sound.rooted, sound.topmost, sound.kept, fun member => inside _ member⟩

/-! ### Names on the way up -/

/-- The way up from a cursor leads through cursors that are held, or that are roots of such, under
the names of a path. -/
inductive Rises (world : World) : List SlotName → CursorId → Prop
  | top {c : CursorId} (inside : c < world.cursors.size) (topmost : world.above? c = none)
      (held : world.isHeld c = true) : Rises world [] c
  | step {path : List SlotName} {name : SlotName} {c parent : CursorId}
      (rises : Rises world path parent) (above : world.above? c = some parent)
      (bears : world.name? c = some name) (held : world.isHeld c = true) :
      Rises world (path ++ [name]) c

section Rises

variable (rises : world.Rises path c)

include rises

theorem Rises.inside : c < world.cursors.size := by
  cases rises with
  | top inside _ _ => exact inside
  | step _ above _ _ => exact lt_size_of_above? above

theorem Rises.isAlive : world.isAlive c = true := by
  cases rises with
  | top _ _ held => rw [World.isAlive, held, Bool.true_or]
  | step _ _ _ held => rw [World.isAlive, held, Bool.true_or]

/-- Cursors that are held know all names above them. -/
theorem Rises.names_eq (sound : Sound world) : world.names c = path := by
  induction rises with
  | @top c _ topmost _ =>
    have orphan : world.parent? c = none := by
      have absent : (world.cursor c).parent? = none := topmost
      rw [parent?, absent]
    simp [names, sound.chain_eq c, orphan, sound.name?_of_topmost topmost]
  | @step path name c parent rises above bears _ ih =>
    have living := parent?_of_above? above rises.isAlive
    rw [names, sound.chain_eq c, living, Option.elim, List.reverse_cons, List.filterMap_append,
      ← names, ih]
    simp [bears]

/-- The way up stays while its cursors are held. -/
theorem Rises.keeps (sound : Sound world) (keeps : world.Keeps after)
    (holds : ∀ d ∈ world.held, d ∈ after.held) : after.Rises path c := by
  have stays {d : CursorId} (held : world.isHeld d = true) : after.isHeld d = true := by
    obtain ⟨handle, member, same⟩ := List.any_eq_true.mp held
    refine List.any_eq_true.mpr ⟨handle, holds handle member, ?_⟩
    have origin : (after.cursor handle).root = (world.cursor handle).root :=
      keeps.origin (sound.held member)
    rw [origin]
    exact same
  induction rises with
  | top inside topmost held =>
    exact .top (Nat.lt_of_lt_of_le inside keeps.size) ((keeps.above inside).trans topmost)
      (stays held)
  | step _ above bears held ih =>
    have inside := lt_size_of_above? above
    exact .step ih ((keeps.above inside).trans above) ((keeps.name inside).trans bears) (stays held)

end Rises

theorem isHeld_of_mem (member : c ∈ world.held) : world.isHeld c = true :=
  List.any_eq_true.mpr ⟨c, member, by simp⟩

end World

/-! ### Turns and fields -/

/-- The fields of an object: those of its type, or its keys if it has none. An object is refused if
what stands under its `type` key names no type. -/
theorem Store.fieldNames_cases (object : store.contents? value = some (.object members)) :
    (∃ own, store.type? value = some own ∧ store.fieldNames value = .ok own.fieldNames) ∨
    store.type? value = none ∧
      ((∃ other unknown, store.inner? value (.key "type") = some other ∧
          store.fieldNames value = .error unknown) ∨
        store.inner? value (.key "type") = none ∧ store.fieldNames value = .ok members.keys) := by
  have present : store.members? value = some members := by rw [members?, object]
  rw [fieldNames, present, inner?_object object]
  cases store.type? value with
  | some own => exact .inl ⟨own, rfl, rfl⟩
  | none =>
    refine .inr ⟨rfl, ?_⟩
    dsimp only
    cases members.get? "type" with
    | some other => exact .inl ⟨other, _, rfl, rfl⟩
    | none => exact .inr ⟨rfl, rfl⟩

namespace Store

/-- Turns that are enough to visit a value. -/
structure Affords (store : Store) (value : Value) (turns : Nat) : Prop where
  two : 2 ≤ turns
  deep : ∀ {path part}, store.part? value path = some part → ¬store.Bare part →
    2 * path.length + 4 ≤ turns

theorem affords_of_bare (bare : store.Bare value) (two : 2 ≤ turns) : store.Affords value turns :=
  ⟨two, fun there full => absurd ((bare.part? there).2 ▸ bare) full⟩

theorem Affords.inner {store : Store} {holder part : Value} {name : SlotName} {turns : Nat}
    (affords : store.Affords holder (turns + 2)) (entry : store.inner? holder name = some part) :
    store.Affords part turns := by
  have full : ¬store.Bare holder := by
    intro bare
    rw [bare.inner?] at entry
    cases entry
  have enough := @affords.deep [] holder rfl full
  refine ⟨by simpa using enough, fun {path deeper} there fullThere => ?_⟩
  have further := affords.deep ((part?_cons entry path).trans there) fullThere
  rw [List.length_cons] at further
  omega

/-! ### What a visit leaves alone -/

/-- Between two stores, nothing that was there has been written to but objects that are parts of a
value. -/
structure Confined (before after : Store) (value : Value) : Prop where
  array : ∀ {other items}, before.contents? other = some (.array items) →
    after.contents? other = some (.array items)
  object : ∀ {other members}, before.contents? other = some (.object members) →
    (∀ path, before.part? value path ≠ some other) → after.contents? other = some (.object members)

theorem Confined.refl (store : Store) (value : Value) : store.Confined store value :=
  ⟨fun present => present, fun present _ => present⟩

/-- Between two stores, nothing that was there has been written to. -/
def Stays (before after : Store) : Prop :=
  ∀ value contents, before.contents? value = some contents → after.contents? value = some contents

theorem Stays.refl (store : Store) : store.Stays store := fun _ _ present => present

theorem Confined.stays {after : Store} (confined : before.Confined mid value)
    (stays : mid.Stays after) : before.Confined after value :=
  ⟨fun present => stays _ _ (confined.array present),
    fun present outside => stays _ _ (confined.object present outside)⟩

/-- What is not there is no composite of a whole value. -/
theorem Whole.plain (whole : store.Whole value) (there : store.part? value path = some part)
    (nothing : store.contents? part = none) (other : Store) : other.contents? part = none := by
  cases part with
  | composite id => exact absurd nothing (whole path id there)
  | _ => rfl

theorem Spares.affords {after : Store} {turns : Nat} (spares : before.Spares after value)
    (affords : before.Affords value turns) : after.Affords value turns := by
  refine ⟨affords.two, fun {path part} there full => ?_⟩
  rw [spares.part?] at there
  refine affords.deep there fun bare => full (bare.imp_right fun empty => ?_)
  rw [spares there]
  exact empty

section Stays

variable {after : Store} (stays : before.Stays mid) (whole : before.Whole value)

include stays whole

theorem Stays.spares : before.Spares mid value := whole.contents?_extended stays

theorem Stays.confined (confined : mid.Confined after value) : before.Confined after value := by
  have spares : before.Spares mid value := stays.spares whole
  refine ⟨fun present => confined.array (stays _ _ present), fun present outside => ?_⟩
  refine confined.object (stays _ _ present) fun path => ?_
  rw [spares.part?]
  exact outside path

end Stays

end Store

namespace World

/-! ### Asking for a slot -/

/-- A cursor that has been found for a slot of the value at another, in a world that has come from
another by asking for it. It stands for what the slot holds, unless neither is a composite. -/
structure Found (world : World) (c : CursorId) (name : SlotName) (d : CursorId) (after : World) :
    Prop where
  sound : Sound after
  keeps : world.Keeps after
  held : after.held = world.held
  store : after.store = world.store
  above : after.above? d = some c
  bears : after.name? d = some name
  shows : after.value d = world.store.slot (world.value c) name ∨
    (∀ id, world.store.slot (world.value c) name ≠ .composite id) ∧
      ∀ id, after.value d ≠ .composite id

theorem keeps_addChild (world : World) (c : CursorId) (name : SlotName) (value : Value) :
    world.Keeps (world.addChild c name value).2 where
  size := by
    rw [size_addChild]
    exact Nat.le_succ _
  value inside := by rw [value_addChild, if_neg (Nat.ne_of_lt inside)]
  above inside := by rw [above?_addChild, if_neg (Nat.ne_of_lt inside)]
  name inside := by rw [name?_addChild, if_neg (Nat.ne_of_lt inside)]
  origin inside := by rw [origin_addChild, if_neg (Nat.ne_of_lt inside)]

theorem Sound.found_child (sound : Sound world) (inside : c < world.cursors.size)
    (normal : world.store.normalName (world.value c) name = name) :
    world.Found c name (world.child c name).1 (world.child c name).2 := by
  have soundAfter := sound.child inside name
  have cases := world.child_cases c name
  rw [normal] at cases
  rcases cases with ⟨kept, keptThere, same, result⟩ | ⟨_, result⟩
  · obtain ⟨above, bears, _⟩ := sound.kept keptThere
    rw [result]
    refine ⟨sound, .refl world, rfl, rfl, above, bears, ?_⟩
    cases held : world.store.slot (world.value c) name with
    | composite id =>
      rw [held] at same
      exact .inl (Value.same_composite_right.mp same)
    | _ =>
      refine .inr ⟨nofun, fun id here => ?_⟩
      have here : world.value kept = .composite id := here
      rw [here, held] at same
      cases same
  · rw [result] at soundAfter ⊢
    refine ⟨soundAfter, keeps_addChild _ _ _ _, rfl, rfl, ?_, ?_, .inl ?_⟩
    · rw [fst_addChild, above?_addChild, if_pos rfl]
    · rw [fst_addChild, name?_addChild, if_pos rfl]
    · rw [fst_addChild, value_addChild, if_pos rfl]

/-- A cursor for a slot of a value as the value was in a store: it stands for what was in the slot,
which has been left alone, or else nothing was there that a walk could enter, and nothing is now. -/
structure Offers (origin : Store) (holder : Value) (world : World) (c : CursorId)
    (name : SlotName) (d : CursorId) : Prop where
  above : world.above? d = some c
  bears : world.name? d = some name
  shows : origin.inner? holder name = some (world.value d) ∧
      origin.Spares world.store (world.value d) ∨
    (world.store.Bare (world.value d) ∧ origin.contents? (world.value d) = none) ∧
      ∀ part, origin.inner? holder name = some part → origin.contents? part = none

/-- The cursors of some slots of a value as the value was in a store, in a world that has come from
another by asking for them. -/
structure Collected (origin : Store) (holder : Value) (world : World) (c : CursorId)
    (names : List SlotName) (result : List CursorId × World) : Prop where
  sound : Sound result.2
  keeps : world.Keeps result.2
  held : result.2.held = world.held
  offers : List.Forall₂ (Offers origin holder result.2 c) names result.1

theorem Collected.inside {result : List CursorId × World}
    (collected : Collected origin holder world c names result) :
    ∀ d ∈ result.1, d < result.2.cursors.size := by
  obtain ⟨_, _, _, offers⟩ := collected
  generalize result.1 = ds at offers
  induction offers with
  | nil => exact nofun
  | cons offers _ ih =>
    exact List.forall_mem_cons.mpr ⟨lt_size_of_above? offers.above, ih⟩

/-- What a cursor offers is there as long as it is left alone. -/
theorem Offers.later (offers : Offers origin holder world c name d) (keeps : world.Keeps after)
    (array : ∀ {other items}, world.store.contents? other = some (.array items) →
      after.store.contents? other = some (.array items))
    (spares : origin.inner? holder name = some (world.value d) →
      origin.Spares world.store (world.value d) → origin.Spares after.store (world.value d)) :
    Offers origin holder after c name d := by
  have inside := lt_size_of_above? offers.above
  refine ⟨(keeps.above inside).trans offers.above, (keeps.name inside).trans offers.bears, ?_⟩
  rw [keeps.value inside]
  rcases offers.shows with ⟨entry, alone⟩ | ⟨⟨bare, new⟩, nothing⟩
  · exact .inl ⟨entry, spares entry alone⟩
  · exact .inr ⟨⟨bare.imp_right array, new⟩, nothing⟩

section Found

variable (found : world.Found c name d after)

include found

/-- What is found in a slot offers what is there. -/
theorem Found.offers (entry : origin.inner? holder name = some part)
    (slot : world.store.slot (world.value c) name = part) (spares : origin.Spares world.store part) :
    Offers origin holder after c name d := by
  refine ⟨found.above, found.bears, ?_⟩
  have shows := found.shows
  rw [slot] at shows
  rcases shows with same | ⟨plain, plainToo⟩
  · rw [same, found.store]
    exact .inl ⟨entry, spares⟩
  · refine .inr ⟨⟨.inl plainToo, Store.contents?_of_plain plainToo⟩, fun other entryToo => ?_⟩
    cases entry.symm.trans entryToo
    exact Store.contents?_of_plain plain

/-- What is found in a slot that was missing offers nothing. -/
theorem Found.offers_nothing (absent : origin.inner? holder name = none)
    (bare : world.store.Bare (world.store.slot (world.value c) name))
    (new : origin.contents? (world.store.slot (world.value c) name) = none) :
    Offers origin holder after c name d := by
  refine ⟨found.above, found.bears, .inr ⟨?_, fun part entry => ?_⟩⟩
  · rcases found.shows with same | ⟨_, plain⟩
    · rw [same, found.store]
      exact ⟨bare, new⟩
    · exact ⟨.inl plain, Store.contents?_of_plain plain⟩
  · rw [absent] at entry
    cases entry

end Found

/-! ### Collecting all children -/

/-- What was found first is still offered when the rest has been collected. -/
theorem Collected.cons {origin : Store} {holder : Value} {world mid : World} {c d : CursorId}
    {name : SlotName} {names : List SlotName} {result : List CursorId × World}
    (rest : Collected origin holder mid c names result) (keeps : world.Keeps mid)
    (held : mid.held = world.held) (first : Offers origin holder mid c name d)
    (array : ∀ {other items}, mid.store.contents? other = some (.array items) →
      result.2.store.contents? other = some (.array items))
    (spares : origin.inner? holder name = some (mid.value d) →
      origin.Spares mid.store (mid.value d) → origin.Spares result.2.store (mid.value d)) :
    Collected origin holder world c (name :: names) (d :: result.1, result.2) where
  sound := rest.sound
  keeps := keeps.trans rest.keeps
  held := rest.held.trans held
  offers := .cons (first.later rest.keeps array spares) rest.offers

/-- The cursors of the elements of an array. -/
theorem Sound.collected_elements {world : World} (sound : Sound world) {c : CursorId}
    (inside : c < world.cursors.size) {items : List Value}
    (array : world.store.contents? (world.value c) = some (.array items)) {names : List SlotName}
    (among : ∀ name ∈ names, ∃ part, world.store.inner? (world.value c) name = some part) :
    Collected world.store (world.value c) world c names (world.childrenAt c names) ∧
      (world.childrenAt c names).2.store = world.store := by
  induction names generalizing world with
  | nil => exact ⟨⟨sound, .refl world, rfl, .nil⟩, rfl⟩
  | cons name rest ih =>
    have found := sound.found_child inside (Store.normalName_array array name)
    obtain ⟨part, entry⟩ := among name List.mem_cons_self
    have first := found.offers entry (Store.slot_of_inner? entry) fun _ => rfl
    have value := found.keeps.value inside
    obtain ⟨others, store⟩ := ih found.sound
      (Nat.lt_of_lt_of_le inside found.keeps.size) (by rw [found.store, value]; exact array)
      (fun name member => by
        rw [found.store, value]
        exact among name (List.mem_cons_of_mem _ member))
    rw [found.store, value] at others
    refine ⟨others.cons found.keeps found.held first ?_ ?_, store.trans found.store⟩ <;> rw [store]
    · exact id
    · exact fun _ => id

/-! ### Visiting one child -/

section Visited

variable (offers : Offers origin holder world c name d)

include offers

/-- What is in no walk through a slot is no part of what is offered for it. -/
theorem Offers.outside {contents : Composite} (present : origin.contents? part = some contents)
    (away : ∀ path, origin.part? holder (name :: path) ≠ some part) (path : List SlotName) :
    world.store.part? (world.value d) path ≠ some part := by
  intro there
  rcases offers.shows with ⟨entry, spares⟩ | ⟨⟨bare, new⟩, _⟩
  · rw [spares.part?, ← Store.part?_cons entry] at there
    exact away path there
  · rw [(bare.part? there).2, new] at present
    cases present

variable (confined : world.store.Confined after.store (world.value d))

include confined

/-- A visit of one child is a visit of parts of the value. -/
theorem Offers.confined_step (confinedBefore : origin.Confined world.store holder) :
    origin.Confined after.store holder where
  array present := confined.array (confinedBefore.array present)
  object present away :=
    confined.object (confinedBefore.object present away)
      (offers.outside present fun path => away (name :: path))

/-- A visit of one child leaves the others alone. -/
theorem Offers.aside (unshared : origin.Unshared holder) (whole : origin.Whole holder)
    (keeps : world.Keeps after) {other : SlotName} {e : CursorId} (different : other ≠ name)
    (waits : Offers origin holder world c other e) : Offers origin holder after c other e := by
  refine waits.later keeps confined.array fun entry spares path part there => ?_
  have stands : origin.part? holder (other :: path) = some part :=
    (Store.part?_cons entry path).trans there
  have same := spares there
  cases present : origin.contents? part with
  | none => exact whole.plain stands present _
  | some contents =>
    rw [present] at same
    cases contents with
    | array items => exact confined.array same
    | object members =>
      refine confined.object same (offers.outside present fun route meets => ?_)
      obtain ⟨id, rfl⟩ := Store.exists_id_of_contents? present
      exact different (List.cons.inj (unshared stands meets)).1

theorem Offers.aside_all (unshared : origin.Unshared holder) (whole : origin.Whole holder)
    (keeps : world.Keeps after) {ds : List CursorId} (apart : name ∉ names)
    (waits : List.Forall₂ (Offers origin holder world c) names ds) :
    List.Forall₂ (Offers origin holder after c) names ds := by
  induction waits with
  | nil => exact .nil
  | cons first _ ih =>
    obtain ⟨different, others⟩ := not_or.mp fun either => apart (List.mem_cons.mpr either)
    exact .cons (offers.aside confined unshared whole keeps (Ne.symm different) first) (ih others)

end Visited

end World

end CodeTree
