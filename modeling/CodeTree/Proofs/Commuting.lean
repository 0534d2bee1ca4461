/-
Independent replacements commute. Two cursors, neither of which stands below the other, are each
given new values for their slots. Whichever goes first, the other cursor is still there to be
asked afterwards, under a new index if an array has moved beneath it, and both orders leave the
same store. If the slots belong to different containers, each is written once; if they belong to
one container, the two exchanges of its contents commute.
-/

import CodeTree.Proofs.Exchanging

namespace CodeTree

variable {world : World} {store : Store} {value : Value} {c d keeper parent : CursorId}
  {contents otherContents : Composite} {front otherFront : List SlotName}
  {others values : List Value} {otherSlot slot : SlotName}

/-! ### Exchanges of contents -/

section Splice

variable {α : Type}

theorem splice_at (front rest added : List α) (item : α) :
    splice front.length 1 added (front ++ item :: rest) = front ++ added ++ rest := by
  simp [splice]

theorem exists_split_at {items : List α} {position : Nat} (inside : position < items.length) :
    ∃ front item rest, items = front ++ item :: rest ∧ front.length = position := by
  refine ⟨items.take position, items[position], items.drop (position + 1), ?_, ?_⟩
  · rw [List.getElem_cons_drop, List.take_append_drop]
  · rw [List.length_take]
    omega

/-- Two elements of a list give way to others, in either order. -/
theorem splice_comm {items added others : List α} {first second : Nat} (before : first < second)
    (inside : second < items.length) :
    splice (second - 1 + added.length) 1 others (splice first 1 added items) =
      splice first 1 added (splice second 1 others items) := by
  obtain ⟨front, item, rest, rfl, rfl⟩ := exists_split_at (Nat.lt_trans before inside)
  obtain ⟨gap, rfl⟩ := Nat.exists_eq_add_of_lt before
  rw [List.length_append, List.length_cons] at inside
  obtain ⟨middle, last, back, rfl, rfl⟩ := @exists_split_at _ rest gap (by omega)
  have left := splice_at (front ++ added ++ middle) back others last
  have right := splice_at (front ++ item :: middle) back others last
  rw [List.length_append, List.length_append] at left
  rw [List.length_append, List.length_cons] at right
  rw [splice_at, ← List.append_assoc (front ++ added) middle,
    show front.length + middle.length + 1 - 1 + added.length =
      front.length + added.length + middle.length by omega, left,
    show front ++ item :: (middle ++ last :: back) = front ++ item :: middle ++ last :: back by simp,
    show front.length + middle.length + 1 = front.length + (middle.length + 1) by omega, right,
    show front ++ item :: middle ++ others ++ back = front ++ item :: (middle ++ others ++ back)
      by simp, splice_at]
  simp

end Splice

namespace Entries

variable {κ α : Type} [DecidableEq κ] {key other : κ} (different : key ≠ other)

theorem drop_cons (key first : κ) (value : α) (rest : List (κ × α)) :
    drop key ((first, value) :: rest) =
      if key = first then drop key rest else (first, value) :: drop key rest := by
  by_cases same : key = first <;> simp [drop, same]

include different

/-- A key that is present is overwritten where it stands, whatever else is written. -/
theorem put_comm (value new : α) {entries : List (κ × α)} (present : lookup key entries ≠ none) :
    put key value (put other new entries) = put other new (put key value entries) := by
  induction entries with
  | nil => exact absurd rfl present
  | cons head rest ih =>
    obtain ⟨first, old⟩ := head
    by_cases here : key = first
    · subst here
      simp [put, different.symm]
    · rw [lookup, if_neg here] at present
      by_cases there : other = first
      · subst there
        simp [put, different]
      · simp [put, here, there, ih present]

theorem drop_put (new : α) (entries : List (κ × α)) :
    drop key (put other new entries) = put other new (drop key entries) := by
  induction entries with
  | nil => simp [put, drop, different]
  | cons head rest ih =>
    obtain ⟨first, old⟩ := head
    by_cases there : other = first
    · subst there
      simp [put, drop_cons, different]
    · by_cases here : key = first
      · subst here
        simp [put, drop_cons, there, ih]
      · simp [put, drop_cons, here, there, ih]

end Entries

theorem Assoc.eq_of_entries {κ α : Type} {map other : Assoc κ α}
    (same : map.entries = other.entries) : map = other := by
  obtain ⟨entries, distinct⟩ := map
  obtain ⟨entriesOther, _⟩ := other
  cases same
  rfl

namespace Composite

/-- What stands in a slot other than the exchanged one stays, in the slot that this one becomes. -/
theorem exists_replaced {other : SlotName} {part : Value} (takes : contents.Takes slot values)
    (entry : contents.inner? other = some part) (different : other ≠ slot) :
    ∃ target, slot.replaced values.length other = some target := by
  cases contents with
  | array items =>
    obtain ⟨gap, rfl, _⟩ := takes
    cases other with
    | key characters => cases entry
    | index position =>
      have apart : position ≠ gap := fun same => different (congrArg SlotName.index same)
      rw [SlotName.replaced, SlotName.spliced]
      split
      · exact ⟨_, rfl⟩
      · rw [if_neg (by omega)]
        exact ⟨_, rfl⟩
  | object members =>
    obtain ⟨⟨characters, rfl⟩, _⟩ := takes
    exact ⟨other, if_neg different⟩

/-- What was taken for another slot is taken for what that slot becomes. -/
theorem Takes.moved {other target : SlotName} (takes : contents.Takes slot values)
    (takesOther : contents.Takes other others)
    (goes : slot.replaced values.length other = some target) :
    (contents.exchange slot values).Takes target others := by
  cases contents with
  | array items =>
    obtain ⟨gap, rfl, inside⟩ := takes
    obtain ⟨place, rfl, insideOther⟩ := takesOther
    have length := @length_splice _ gap 1 values items inside
    rw [SlotName.replaced, SlotName.spliced] at goes
    split at goes
    · cases goes
      exact ⟨place, rfl, by omega⟩
    · split at goes
      · cases goes
      · cases goes
        exact ⟨_, rfl, by omega⟩
  | object members =>
    obtain ⟨⟨key, rfl⟩, _⟩ := takes
    obtain ⟨⟨otherKey, rfl⟩, few⟩ := takesOther
    rw [SlotName.replaced, SlotName.without] at goes
    split at goes
    · cases goes
    · cases goes
      cases values <;> exact ⟨⟨otherKey, rfl⟩, few⟩

/-- Exchanges of two slots commute, as the one slot moves when the other is exchanged. -/
theorem exchange_comm {other moved otherMoved : SlotName} (takes : contents.Takes slot values)
    (takesOther : contents.Takes other others) (present : contents.inner? slot ≠ none)
    (goes : other.replaced others.length slot = some moved)
    (goesOther : slot.replaced values.length other = some otherMoved) :
    (contents.exchange slot values).exchange otherMoved others =
      (contents.exchange other others).exchange moved values := by
  cases contents with
  | array items =>
    obtain ⟨gap, rfl, inside⟩ := takes
    obtain ⟨place, rfl, insideOther⟩ := takesOther
    rw [SlotName.replaced, SlotName.spliced] at goes goesOther
    rcases Nat.lt_trichotomy gap place with before | same | behind
    · rw [if_pos before] at goes
      rw [if_neg (by omega), if_neg (by omega)] at goesOther
      cases goes
      cases goesOther
      exact congrArg array (splice_comm before insideOther)
    · rw [if_neg (by omega), if_pos (by omega)] at goes
      cases goes
    · rw [if_neg (by omega), if_neg (by omega)] at goes
      rw [if_pos behind] at goesOther
      cases goes
      cases goesOther
      exact congrArg array (splice_comm behind inside).symm
  | object members =>
    obtain ⟨⟨key, rfl⟩, few⟩ := takes
    obtain ⟨⟨otherKey, rfl⟩, fewOther⟩ := takesOther
    rw [SlotName.replaced, SlotName.without] at goes goesOther
    split at goes
    · cases goes
    · rename_i apart
      have different : key ≠ otherKey := fun same => apart (congrArg SlotName.key same)
      rw [if_neg fun same => apart same.symm] at goesOther
      cases goes
      cases goesOther
      cases values with
      | nil =>
        cases others with
        | nil =>
          refine congrArg object (Assoc.eq_of_entries ?_)
          exact List.filter_comm _ _ _
        | cons new _ =>
          refine congrArg object (Assoc.eq_of_entries ?_)
          exact (Entries.drop_put different new members.entries).symm
      | cons value _ =>
        cases others with
        | nil =>
          refine congrArg object (Assoc.eq_of_entries ?_)
          exact Entries.drop_put different.symm value members.entries
        | cons new _ =>
          refine congrArg object (Assoc.eq_of_entries ?_)
          exact (Entries.put_comm different value new present).symm

end Composite

/-! ### New values -/

namespace Store

/-- Values whose composites do not stand in a tree, and not twice among them. -/
structure Fresh (store : Store) (root : Value) (values : List Value) : Prop where
  outside : ∀ {value path other id}, value ∈ values →
    store.part? value path = some (.composite id) → store.part? root other ≠ some (.composite id)
  apart : ∀ {position place : Nat} {value other path otherPath id},
    values[position]? = some value → values[place]? = some other →
    store.part? value path = some (.composite id) →
    store.part? other otherPath = some (.composite id) → position = place ∧ path = otherPath

namespace Fresh

variable {root : Value}

theorem of_plain (plain : ∀ value ∈ values, ∀ id, value ≠ .composite id) :
    store.Fresh root values := by
  have nothing {value : Value} {path : List SlotName} {id : CompositeId} (member : value ∈ values)
      (brought : store.part? value path = some (.composite id)) : False :=
    part?_ne_composite (plain value member) id brought
  exact ⟨fun member brought => (nothing member brought).elim,
    fun here _ brought => (nothing (List.mem_of_getElem? here) brought).elim⟩

theorem admits (fresh : store.Fresh root values) (slot : List SlotName) :
    store.Admits root slot values :=
  ⟨fun member brought stands => absurd stands (fresh.outside member brought), fresh.apart⟩

theorem left (fresh : store.Fresh root (values ++ others)) : store.Fresh root values := by
  refine ⟨fun member => fresh.outside (List.mem_append_left _ member), ?_⟩
  intro position place value other path otherPath id here there
  refine fresh.apart ?_ ?_
  · rw [List.getElem?_append_left (List.getElem?_eq_some_iff.mp here).1]
    exact here
  · rw [List.getElem?_append_left (List.getElem?_eq_some_iff.mp there).1]
    exact there

theorem swap (fresh : store.Fresh root (values ++ others)) : store.Fresh root (others ++ values) := by
  -- A place in the one list is a place in the other.
  have turn {position : Nat} {value : Value} (here : (others ++ values)[position]? = some value) :
      (values ++ others)[if position < others.length then values.length + position
        else position - others.length]? = some value := by
    split
    · rename_i early
      rw [List.getElem?_append_left early] at here
      rw [List.getElem?_append_right (Nat.le_add_right _ _), Nat.add_sub_cancel_left]
      exact here
    · rename_i late
      rw [List.getElem?_append_right (Nat.le_of_not_lt late)] at here
      rw [List.getElem?_append_left (List.getElem?_eq_some_iff.mp here).1]
      exact here
  refine ⟨fun member => fresh.outside ?_, ?_⟩
  · exact List.mem_append.mpr (List.mem_append.mp member).symm
  · intro position place value other path otherPath id here there brought also
    obtain ⟨same, samePath⟩ := fresh.apart (turn here) (turn there) brought also
    refine ⟨?_, samePath⟩
    have bound := (List.getElem?_eq_some_iff.mp here).1
    have boundThere := (List.getElem?_eq_some_iff.mp there).1
    rw [List.length_append] at bound boundThere
    split at same <;> split at same <;> omega

section Write

variable {after : Store} {target : Value} {place : List SlotName}
  (there : store.part? root place = some target)
  (elsewhere : ∀ {other}, other ≠ target → after.contents? other = store.contents? other)

include there elsewhere

/-- A write to the tree does not show in what is new. -/
theorem spares_of_write (fresh : store.Fresh root values) (member : value ∈ values) :
    store.Spares after value := by
  intro path part brought
  cases part with
  | composite id =>
    refine elsewhere ?_
    rintro rfl
    exact fresh.outside member brought there
  | _ => rfl

theorem tree_of_write (fresh : store.Fresh root values) (member : value ∈ values) :
    after.tree value = store.tree value := by
  obtain ⟨position, here⟩ := List.mem_iff_getElem?.mp member
  exact Spares.tree (spares_of_write there elsewhere fresh member)
    fun first second => (fresh.apart here here first second).2

/-- What is new stays new when something else that is new has come into the tree. -/
theorem after_write (fresh : store.Fresh root (values ++ others))
    (entries : ∀ {name part}, after.inner? target name = some part →
      part ∈ values ∨ ∃ old, store.inner? target old = some part) : after.Fresh root others := by
  have parts {value : Value} (member : value ∈ others) (path : List SlotName) :=
    Spares.part? (fresh.spares_of_write there elsewhere (List.mem_append_right values member)) path
  refine ⟨?_, ?_⟩
  · intro value path other id member brought stands
    rw [parts member] at brought
    have known : store.PartOf (root :: values) root := ⟨root, List.mem_cons_self, [], rfl⟩
    obtain ⟨source, inSources, old, stood⟩ := known.part_of_write elsewhere
      (fun entry => (entries entry).imp_left (List.mem_cons_of_mem _)) stands
    rcases List.mem_cons.mp inSources with rfl | new
    · exact fresh.outside (List.mem_append_right _ member) brought stood
    · obtain ⟨position, here⟩ := List.mem_iff_getElem?.mp new
      obtain ⟨place, also⟩ := List.mem_iff_getElem?.mp member
      have bound := (List.getElem?_eq_some_iff.mp here).1
      have together : (values ++ others)[values.length + place]? = some value := by
        rw [List.getElem?_append_right (Nat.le_add_right _ _), Nat.add_sub_cancel_left]
        exact also
      rw [← List.getElem?_append_left bound] at here
      obtain ⟨same, _⟩ := fresh.apart here together stood brought
      omega
  · intro position place value other path otherPath id here also brought broughtAlso
    rw [parts (List.mem_of_getElem? here)] at brought
    rw [parts (List.mem_of_getElem? also)] at broughtAlso
    exact fresh.swap.left.apart here also brought broughtAlso

end Write

end Fresh

end Store

theorem SlotName.movePath_concat {move : SlotName → Option SlotName}
    {container path moved : List SlotName} (goes : movePath move container path = some moved)
    (different : path ≠ container) (last : SlotName) :
    movePath move container (path ++ [last]) = some (moved ++ [last]) := by
  rcases movePath_cases goes with ⟨name, rest, target, rfl, moves, rfl⟩ | ⟨_, rfl, away⟩
  · rw [List.append_assoc, List.cons_append, movePath_append, moves, Option.map_some,
      List.append_assoc, List.cons_append]
  · refine movePath_of_away fun name rest equal => ?_
    rcases List.eq_nil_or_concat rest with rfl | ⟨beyond, final, rfl⟩
    · exact different (List.append_inj_left' equal rfl)
    · rw [List.concat_eq_append, ← List.cons_append, ← List.append_assoc] at equal
      exact away name beyond (List.append_inj_left' equal rfl)

/-- Stores with the same contents are the same. -/
theorem Store.eq_of_contents? {other : Store}
    (same : ∀ value, store.contents? value = other.contents? value) : store = other := by
  obtain ⟨composites⟩ := store
  obtain ⟨otherComposites⟩ := other
  exact congrArg Store.mk (Array.ext_getElem? fun id => same (.composite id))

namespace World

/-! ### One replacement -/

section One

variable (coherent : Coherent 0 world) (held : world.isHeld 0 = true)
  (standing : world.Standing front slot c parent contents) (takes : contents.Takes slot values)
  (fresh : world.store.Fresh (world.value 0) (values ++ others))
  (free : ∀ value ∈ values ++ others, world.store.NaNFree value)
  (room : world.store.HasRoom (values.length + others.length))

include coherent held standing takes fresh free room

/-- A replacement by new values is answered, and another one by further new values can follow. -/
theorem Standing.replace : ∃ cs after, Action.replace c values world = .ok cs after ∧
    Replacement c parent slot values.length (contents.exchange slot values) world after ∧
    Coherent 0 after ∧ after.isHeld 0 = true ∧ Exchanges front slot values world after ∧
    after.store.Fresh (after.value 0) others ∧
    (∀ value ∈ others, after.store.NaNFree value) ∧ after.store.HasRoom others.length := by
  have small {items : List Value} (array : contents = .array items) :
      items.length + values.length ≤ indexBound := by
    have enough := room (array ▸ standing.present)
    omega
  obtain ⟨cs, after, result, replacement, quiet, coherentAfter, exchanges, _⟩ :=
    coherent.replace held standing takes (fresh.left.admits _)
      (fun value member => free value (List.mem_append_left _ member)) room.fits small
  obtain ⟨id, here⟩ := Store.exists_id_of_contents? standing.present
  have there := coherent.part_of_follow standing.toParent here
  have elsewhere {other : Value} (different : other ≠ .composite id) :
      after.store.contents? other = world.store.contents? other := by
    rw [← here] at different
    exact replacement.others different
  have entries {name : SlotName} {part : Value}
      (entry : after.store.inner? (.composite id) name = some part) :
      part ∈ values ∨ ∃ old, world.store.inner? (.composite id) old = some part := by
    rw [← here] at entry ⊢
    exact replacement.source standing takes entry
  refine ⟨cs, after, result, replacement, coherentAfter, quiet.isHeld coherent.sound held,
    exchanges, ?_, ?_, ?_⟩
  · rw [exchanges.root]
    exact fresh.after_write there elsewhere entries
  · intro value member path part brought
    rw [Store.Spares.part?
      (fresh.spares_of_write there elsewhere (List.mem_append_right _ member))] at brought
    exact free value (List.mem_append_right _ member) brought
  · exact Store.HasRoom.exchange takes replacement.written replacement.others room standing.present

end One

/-! ### Another cursor after a replacement -/

section Other

variable {mid : World} (coherent : Coherent 0 world)
  (standing : world.Standing front slot c parent contents)
  (other : world.Standing otherFront otherSlot d keeper otherContents)
  (takes : contents.Takes slot values)
  (replacement : Replacement c parent slot values.length (contents.exchange slot values) world mid)
  (exchanges : Exchanges front slot values world mid)

include coherent standing other takes replacement exchanges

/-- A cursor in another slot of the container moves with its slot. -/
theorem Standing.beside (same : otherFront = front) (different : otherSlot ≠ slot)
    (filled : otherContents.inner? otherSlot ≠ none) :
    keeper = parent ∧ otherContents = contents ∧ ∃ target,
      slot.replaced values.length otherSlot = some target ∧
      SlotName.movePath (slot.replaced values.length) front (otherFront ++ [otherSlot]) =
        some (front ++ [target]) ∧
      mid.Standing front target d parent (contents.exchange slot values) := by
  subst same
  have sound := coherent.sound
  obtain rfl : keeper = parent :=
    Option.some.inj (other.toParent.symm.trans standing.toParent)
  obtain rfl : otherContents = contents :=
    Option.some.inj (other.present.symm.trans standing.present)
  obtain ⟨part, entry⟩ := Option.ne_none_iff_exists'.mp filled
  obtain ⟨target, goes⟩ := Composite.exists_replaced takes entry different
  have moves : SlotName.movePath (slot.replaced values.length) otherFront
      (otherFront ++ [otherSlot]) = some (otherFront ++ [target]) := by
    rw [SlotName.movePath_append, goes, Option.map_some]
  obtain ⟨toParent, sameParent⟩ := exchanges.survives standing.toParent (SlotName.movePath_self _ _)
  obtain ⟨holder, toHolder, kept⟩ := follow?_concat.mp
    (exchanges.survives (follow?_concat.mpr ⟨_, other.toParent, other.kept⟩) moves).1
  obtain rfl := Option.some.inj (toHolder.symm.trans toParent)
  refine ⟨rfl, rfl, target, goes, moves, toParent, kept, ?_⟩
  rw [sameParent]
  exact replacement.written

/-- A cursor in a slot of another container keeps its name there. -/
theorem Standing.away (different : otherFront ≠ front) (apart : ¬(front ++ [slot]) <+: otherFront) :
    keeper ≠ parent ∧ mid.value keeper = world.value keeper ∧
    mid.value keeper ≠ world.value parent ∧ ∃ place,
      SlotName.movePath (slot.replaced values.length) front (otherFront ++ [otherSlot]) =
        some (place ++ [otherSlot]) ∧
      mid.Standing place otherSlot d keeper otherContents := by
  have sound := coherent.sound
  obtain ⟨id, here⟩ := Store.exists_id_of_contents? other.present
  have keepers : keeper ≠ parent := by
    rintro rfl
    exact different (sound.follow_unique other.toParent standing.toParent)
  obtain ⟨place, moves⟩ : ∃ place,
      SlotName.movePath (slot.replaced values.length) front otherFront = some place := by
    by_cases through : ∃ name rest, otherFront = front ++ name :: rest
    · obtain ⟨name, rest, rfl⟩ := through
      have there := coherent.part_of_follow other.toParent here
      obtain ⟨parentId, parentHere⟩ := Store.exists_id_of_contents? standing.present
      have reached := coherent.part_of_follow standing.toParent parentHere
      rw [Store.part?_append, reached, Option.bind_some] at there
      obtain ⟨part, entry, _⟩ := Option.bind_eq_some_iff.mp there
      rw [← parentHere, Store.inner?_of_contents standing.present] at entry
      obtain ⟨target, goes⟩ := Composite.exists_replaced takes entry (by
        rintro rfl
        exact apart ⟨rest, by rw [List.append_assoc]; rfl⟩)
      exact ⟨_, (SlotName.movePath_append _ _ _ _).trans (by rw [goes]; rfl)⟩
    · exact ⟨_, SlotName.movePath_of_away fun name rest equal => through ⟨name, rest, equal⟩⟩
  have movesOn := SlotName.movePath_concat moves different otherSlot
  obtain ⟨toKeeper, sameKeeper⟩ := exchanges.survives other.toParent moves
  obtain ⟨holder, toHolder, kept⟩ := follow?_concat.mp
    (exchanges.survives (follow?_concat.mpr ⟨_, other.toParent, other.kept⟩) movesOn).1
  obtain rfl := Option.some.inj (toHolder.symm.trans toKeeper)
  have values : mid.value holder ≠ world.value parent := by
    intro equal
    rw [sameKeeper, here] at equal
    exact keepers (coherent.eq_of_value other.toParent standing.toParent here equal.symm)
  refine ⟨keepers, sameKeeper, values, place, movesOn, toKeeper, kept, ?_⟩
  rw [replacement.others values, sameKeeper]
  exact other.present

end Other

/-! ### Both replacements -/

/-- A cursor that can be asked to replace what stands in its slot: it can be reached and is held,
the tree has the slot, and a key is given one value at most. -/
structure Replaceable (world : World) (front : List SlotName) (slot : SlotName) (c : CursorId)
    (values : List Value) : Prop where
  reachable : world.follow? 0 (front ++ [slot]) = some c
  held : c ∈ world.held
  filled : world.store.part? (world.value 0) (front ++ [slot]) ≠ none
  few : ∀ characters, slot = .key characters → values.length ≤ 1

theorem Replaceable.standing (replaceable : Replaceable world front slot c values)
    (coherent : Coherent 0 world) : ∃ parent contents,
      world.Standing front slot c parent contents ∧ contents.Takes slot values ∧
      contents.inner? slot ≠ none :=
  coherent.standing replaceable.reachable replaceable.filled values replaceable.few

section Both

variable (coherent : Coherent 0 world) (held : world.isHeld 0 = true)
  (standing : world.Standing front slot c parent contents)
  (other : world.Standing otherFront otherSlot d keeper otherContents)
  (takes : contents.Takes slot values) (takesOther : otherContents.Takes otherSlot others)
  (filled : otherContents.inner? otherSlot ≠ none)
  (apart : ¬(front ++ [slot]) <+: (otherFront ++ [otherSlot]))
  (fresh : world.store.Fresh (world.value 0) (values ++ others))
  (free : ∀ value ∈ values ++ others, world.store.NaNFree value)
  (room : world.store.HasRoom (values.length + others.length))

include coherent held standing other takes takesOther filled apart fresh free room

/-- One replacement after the other, and what they leave. -/
theorem Standing.replace_both :
    ∃ cs ds mid after place target, Action.replace c values world = .ok cs mid ∧
      Action.replace d others mid = .ok ds after ∧
      SlotName.movePath (slot.replaced values.length) front (otherFront ++ [otherSlot]) =
        some (place ++ [target]) ∧
      after.value 0 = world.value 0 ∧
      after.tree = (world.tree.exchange front slot (values.map world.store.tree)).exchange place
        target (others.map world.store.tree) ∧
      ((keeper = parent ∧ otherContents = contents ∧
          slot.replaced values.length otherSlot = some target ∧
          ∀ value, after.store.contents? value = if value = world.value parent
            then some ((contents.exchange slot values).exchange target others)
            else world.store.contents? value) ∨
        keeper ≠ parent ∧ world.value keeper ≠ world.value parent ∧
          ∀ value, after.store.contents? value = if value = world.value parent
            then some (contents.exchange slot values)
            else if value = world.value keeper then some (otherContents.exchange otherSlot others)
            else world.store.contents? value) := by
  obtain ⟨cs, mid, result, replacement, coherentMid, heldMid, exchanges, freshMid, freeMid,
    roomMid⟩ := standing.replace coherent held takes fresh free room
  obtain ⟨id, here⟩ := Store.exists_id_of_contents? standing.present
  have newTrees : others.map mid.store.tree = others.map world.store.tree := by
    refine List.map_congr_left fun value member => ?_
    refine fresh.tree_of_write (coherent.part_of_follow standing.toParent here) ?_
      (List.mem_append_right _ member)
    intro value different
    rw [← here] at different
    exact replacement.others different
  -- What the second replacement does, wherever its cursor stands by now.
  have second {place : List SlotName} {target : SlotName} {holder : CursorId} {now : Composite}
      (standingNow : mid.Standing place target d holder now) (takesNow : now.Takes target others) :
      ∃ ds after, Action.replace d others mid = .ok ds after ∧
        after.value 0 = world.value 0 ∧
        after.tree = (world.tree.exchange front slot (values.map world.store.tree)).exchange place
          target (others.map world.store.tree) ∧
        ∀ value, after.store.contents? value = if value = mid.value holder
          then some (now.exchange target others) else mid.store.contents? value := by
    rw [← List.append_nil others] at freshMid freeMid
    obtain ⟨ds, after, resultNow, replacementNow, _, _, exchangesNow, _⟩ :=
      standingNow.replace coherentMid heldMid takesNow freshMid freeMid roomMid
    refine ⟨ds, after, resultNow, exchangesNow.root.trans exchanges.root, ?_, fun value => ?_⟩
    · rw [exchangesNow.tree, exchanges.tree, newTrees]
    · split
      · rename_i same
        rw [same]
        exact replacementNow.written
      · rename_i different
        exact replacementNow.others different
  by_cases same : otherFront = front
  · have different : otherSlot ≠ slot := by
      rintro rfl
      exact apart (by rw [same])
    obtain ⟨rfl, rfl, target, goes, moves, standingNow⟩ :=
      standing.beside coherent other takes replacement exchanges same different filled
    obtain ⟨ds, after, resultNow, root, tree, contentsNow⟩ :=
      second standingNow (takes.moved takesOther goes)
    obtain ⟨_, sameKeeper⟩ := exchanges.survives standing.toParent (SlotName.movePath_self _ _)
    refine ⟨cs, ds, mid, after, front, target, result, resultNow, moves, root, tree,
      .inl ⟨rfl, rfl, goes, fun value => ?_⟩⟩
    rw [contentsNow, sameKeeper]
    split
    · rfl
    · rename_i elsewhere
      exact replacement.others elsewhere
  · have apartFront : ¬(front ++ [slot]) <+: otherFront :=
      fun through => apart (through.trans (List.prefix_append _ _))
    obtain ⟨keepers, sameKeeper, unequal, place, moves, standingNow⟩ :=
      standing.away coherent other takes replacement exchanges same apartFront
    obtain ⟨ds, after, resultNow, root, tree, contentsNow⟩ := second standingNow takesOther
    refine ⟨cs, ds, mid, after, place, otherSlot, result, resultNow, moves, root, tree,
      .inr ⟨keepers, sameKeeper ▸ unequal, fun value => ?_⟩⟩
    rw [contentsNow, sameKeeper]
    by_cases atParent : value = world.value parent
    · rw [if_pos atParent, atParent, if_neg (sameKeeper ▸ unequal).symm]
      exact replacement.written
    · rw [if_neg atParent]
      exact if_congr Iff.rfl rfl (replacement.others atParent)

end Both

/-- Independent replacements commute. Along every run, of two cursors that can be reached, neither
above the other, each is given new values for a slot that the tree has. In either order both
replacements are answered, and they leave the same store below the same root: the tree in which
the one exchange has been made, and then the other where its slot has moved to. -/
theorem replacements_commute {world : World} (run : Run world) {front otherFront : List SlotName}
    {slot otherSlot : SlotName} {c d : CursorId} {values others : List Value}
    (first : Replaceable world front slot c values)
    (second : Replaceable world otherFront otherSlot d others)
    (below : ¬(front ++ [slot]) <+: (otherFront ++ [otherSlot]))
    (above : ¬(otherFront ++ [otherSlot]) <+: (front ++ [slot]))
    (fresh : world.store.Fresh (world.value 0) (values ++ others))
    (free : ∀ value ∈ values ++ others, world.store.NaNFree value)
    (room : world.store.HasRoom (values.length + others.length)) :
    ∃ cs ds mid after otherDs otherCs otherMid otherAfter place target,
      Action.replace c values world = .ok cs mid ∧ Action.replace d others mid = .ok ds after ∧
      Action.replace d others world = .ok otherDs otherMid ∧
      Action.replace c values otherMid = .ok otherCs otherAfter ∧
      otherAfter.store = after.store ∧ otherAfter.value 0 = after.value 0 ∧
      SlotName.movePath (slot.replaced values.length) front (otherFront ++ [otherSlot]) =
        some (place ++ [target]) ∧
      after.store.tree (after.value 0) = ((world.store.tree (world.value 0)).exchange front slot
        (values.map world.store.tree)).exchange place target (others.map world.store.tree) := by
  have coherent := run.coherent
  have held := coherent.isHeld_root first.reachable first.held
  obtain ⟨parent, contents, standing, takes, filled⟩ := first.standing coherent
  obtain ⟨keeper, otherContents, standingOther, takesOther, filledOther⟩ :=
    second.standing coherent
  obtain ⟨cs, ds, mid, after, place, target, result, resultOther, moves, root, tree, left⟩ :=
    standing.replace_both coherent held standingOther takes takesOther filledOther below fresh free
      room
  obtain ⟨otherDs, otherCs, otherMid, otherAfter, _, _, otherResult, lastResult, _, otherRoot, _,
      right⟩ :=
    standingOther.replace_both coherent held standing takesOther takes filled above fresh.swap
      (fun value member => free value (List.mem_append.mpr (List.mem_append.mp member).symm))
      (by rw [Nat.add_comm]; exact room)
  refine ⟨cs, ds, mid, after, otherDs, otherCs, otherMid, otherAfter, place, target, result,
    resultOther, otherResult, lastResult, Store.eq_of_contents? fun value => ?_,
    otherRoot.trans root.symm, moves, tree⟩
  rcases left with ⟨rfl, rfl, goes, left⟩ | ⟨different, unequal, left⟩
  · rcases right with ⟨_, _, goesOther, right⟩ | ⟨different, _⟩
    · rw [left, right, Composite.exchange_comm takes takesOther filled goesOther goes]
    · exact absurd rfl different
  · rcases right with ⟨rfl, _⟩ | ⟨_, _, right⟩
    · exact absurd rfl different
    · rw [left, right]
      by_cases atParent : value = world.value parent
      · rw [if_pos atParent, if_neg (atParent ▸ unequal.symm), if_pos atParent]
      · rw [if_neg atParent, if_neg atParent]

/-- In an array of two elements, the first gives way to two values and the second to none. Asked
last, the cursor of the second has moved to index 2; asked first, it is removed from index 1. -/
theorem replacements_commute_side_by_side :
    ∃ world mid after otherMid otherAfter : World, Run world ∧
      (∃ cs ds, Action.replace 1 [.null, .bool false] world = .ok cs mid ∧
        Action.replace 2 [] mid = .ok ds after) ∧
      (∃ ds cs, Action.replace 2 [] world = .ok ds otherMid ∧
        Action.replace 1 [.null, .bool false] otherMid = .ok cs otherAfter) ∧
      otherAfter.store = after.store ∧
      after.store.tree (after.value 0) = .array 0 [.leaf .null, .leaf (.bool false)] := by
  have looked : Run ⟨⟨#[.array [.bool true, .bool false]]⟩, #[
        ⟨.composite 0, none, none, 0, ⟨[(.index 0, 1), (.index 1, 2)], by decide⟩, .empty⟩,
        ⟨.bool true, some 0, some (.index 0), 0, .empty, .empty⟩,
        ⟨.bool false, some 0, some (.index 1), 0, .empty, .empty⟩], #[], [0, 1, 2]⟩ := by
    have start := @Run.start_flat [.bool true, .bool false] (by simp) (by simp [Value.isNaN])
    have first := start.element rfl (by decide) (by decide : 0 < 2) (by decide)
    exact Run.handles [0, 1, 2] (first.element rfl (by decide) (by decide : 1 < 2) (by decide))
      (by decide)
  have room : Store.HasRoom ⟨#[.array [.bool true, .bool false]]⟩ 2 := by
    rintro (_ | _ | _ | _ | _ | _) items array <;> cases array
    decide
  obtain ⟨cs, ds, mid, after, otherDs, otherCs, otherMid, otherAfter, place, target, result,
    resultOther, otherResult, lastResult, store, _, moves, tree⟩ :=
    @replacements_commute _ looked [] [] (.index 0) (.index 1) 1 2 [.null, .bool false] []
      ⟨rfl, by decide, by decide, by rintro _ ⟨⟩⟩ ⟨rfl, by decide, by decide, by rintro _ ⟨⟩⟩
      (by decide)
      (by decide) (.of_plain (by simp))
      (by
        intro value member
        rcases List.mem_pair.mp member with rfl | rfl <;> exact Store.nanFree_of_plain rfl rfl)
      room
  refine ⟨_, mid, after, otherMid, otherAfter, looked, ⟨cs, ds, result, resultOther⟩,
    ⟨otherDs, otherCs, otherResult, lastResult⟩, store, tree.trans ?_⟩
  have arrives : ([] ++ [.index 2] : List SlotName) = place ++ [target] := Option.some.inj moves
  obtain ⟨rfl, last⟩ := List.append_inj' arrives rfl
  cases last
  rfl

end World

end CodeTree
