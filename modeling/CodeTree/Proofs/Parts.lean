/-
The parts of a value: what stands in its slots, in the slots of those, and so on. A path of
names leads from a value to a part. A value is unshared if no composite stands at two places of
it; a write to one of its composites then shows at one place only. A value is free of NaN if no
part of it is NaN.
-/

import CodeTree.Cursor.Edit
import CodeTree.Proofs.Slots

namespace CodeTree

namespace Store

variable {store other : Store} {value part : Value} {name : SlotName} {path : List SlotName}
  {items : List Value}

/-! ### Places -/

/-- What stands in a slot that a value really has. Arrays only show their length, and what is
missing only reads as null. -/
def inner? (store : Store) (value : Value) (name : SlotName) : Option Value :=
  match store.contents? value, name with
  | some (.array items), .index position => items[position]?
  | some (.object members), .key characters => members.get? characters
  | _, _ => none

/-- The part of a value at the end of a path. -/
def part? (store : Store) (value : Value) : List SlotName → Option Value
  | [] => some value
  | name :: rest => (store.inner? value name).bind (fun next => store.part? next rest)

/-- No composite stands at two places of a value. -/
def Unshared (store : Store) (value : Value) : Prop :=
  ∀ {path other id}, store.part? value path = some (.composite id) →
    store.part? value other = some (.composite id) → path = other

/-- No part of a value is NaN. -/
def NaNFree (store : Store) (value : Value) : Prop :=
  ∀ {path part}, store.part? value path = some part → part.isNaN = false

/-- Every index into an array is an index. -/
def Fits (store : Store) : Prop :=
  ∀ {value items}, store.contents? value = some (.array items) → items.length < indexBound

theorem inner?_array (array : store.contents? value = some (.array items)) (position : Nat) :
    store.inner? value (.index position) = items[position]? := by
  simp [inner?, array]

theorem inner?_object {members : Assoc String Value}
    (object : store.contents? value = some (.object members)) (characters : String) :
    store.inner? value (.key characters) = members.get? characters := by
  simp [inner?, object]

theorem exists_name_of_mem {item : Value} (array : store.contents? value = some (.array items))
    (member : item ∈ items) : ∃ name, store.inner? value name = some item := by
  obtain ⟨position, there⟩ := List.mem_iff_getElem?.mp member
  exact ⟨.index position, (inner?_array array position).trans there⟩

theorem inner?_of_mem {members : Assoc String Value} {member : String × Value}
    (object : store.contents? value = some (.object members)) (inside : member ∈ members.entries) :
    store.inner? value (.key member.1) = some member.2 :=
  (inner?_object object member.1).trans (Assoc.mem_entries.mp inside)

theorem inner?_congr (equal : store.contents? value = other.contents? value) (name : SlotName) :
    store.inner? value name = other.inner? value name := by
  unfold inner?
  rw [equal]

theorem part?_cons (entry : store.inner? value name = some part) (path : List SlotName) :
    store.part? value (name :: path) = store.part? part path := by
  rw [part?, entry, Option.bind_some]

theorem part?_append (store : Store) (value : Value) (path rest : List SlotName) :
    store.part? value (path ++ rest) =
      (store.part? value path).bind (fun part => store.part? part rest) := by
  induction path generalizing value with
  | nil => rfl
  | cons name path ih =>
    simp only [List.cons_append, part?, Option.bind_assoc, ih]

theorem part?_concat :
    store.part? value (path ++ [name]) = some part ↔
      ∃ holder, store.part? value path = some holder ∧ store.inner? holder name = some part := by
  rw [part?_append, Option.bind_eq_some_iff]
  simp only [part?, Option.bind_fun_some]

/-- Between two stores, nothing has been written to a value or to a part of it. -/
def Spares (before after : Store) (value : Value) : Prop :=
  ∀ {path part}, before.part? value path = some part → after.contents? part = before.contents? part

section Spares

variable (spares : store.Spares other value)

include spares

theorem Spares.next (entry : store.inner? value name = some part) : store.Spares other part :=
  fun {path _} there => @spares (name :: path) _ ((part?_cons entry path).trans there)

theorem Spares.part? (path : List SlotName) : other.part? value path = store.part? value path := by
  induction path generalizing value with
  | nil => rfl
  | cons name rest ih =>
    have here : other.contents? value = store.contents? value := @spares [] value rfl
    rw [Store.part?, Store.part?, inner?_congr here]
    cases entry : store.inner? value name with
    | none => rfl
    | some next => exact ih (spares.next entry)

theorem Spares.trans {last : Store} (later : other.Spares last value) :
    store.Spares last value := fun {path _} there =>
  (later ((spares.part? path).trans there)).trans (spares there)

theorem Spares.symm : other.Spares store value := by
  intro path part there
  rw [spares.part?] at there
  exact (spares there).symm

theorem Spares.unshared (unshared : store.Unshared value) : other.Unshared value := by
  intro path place id first second
  rw [spares.part?] at first second
  exact unshared first second

theorem Spares.free (free : store.NaNFree value) : other.NaNFree value := by
  intro path part there
  rw [spares.part?] at there
  exact free there

end Spares

/-- What a slot shows is what stands in it, or null, or the length of an array. -/
theorem slot_cases (store : Store) (value : Value) (name : SlotName) :
    store.inner? value (store.normalName value name) = some (store.slot value name) ∨
      store.slot value name = .null ∨ ∃ n, store.slot value name = .number (.ofInt n) := by
  cases contents : store.contents? value with
  | none => exact Or.inr (Or.inl (slot_of_none contents name))
  | some composite =>
    cases composite with
    | object members =>
      rw [slot_object contents, normalName_object contents]
      cases present : members.get? name.text with
      | none => exact Or.inr (Or.inl rfl)
      | some value => exact Or.inl ((inner?_object contents _).trans present)
    | array items =>
      cases name with
      | index position =>
        rw [slot_array contents, normalName_array contents]
        cases present : items[position]? with
        | none => exact Or.inr (Or.inl rfl)
        | some value => exact Or.inl ((inner?_array contents _).trans present)
      | key characters =>
        by_cases length : characters = "length"
        · rw [length]
          exact Or.inr (Or.inr ⟨_, slot_length contents⟩)
        · exact Or.inr (Or.inl (slot_key_array contents length))

/-- Only a composite has slots. -/
theorem exists_id_of_inner? (entry : store.inner? value name = some part) :
    ∃ id, value = .composite id := by
  cases value with
  | composite id => exact ⟨id, rfl⟩
  | _ => cases entry

/-- A composite that a slot shows under its normal name stands in it. -/
theorem inner?_of_slot {id : CompositeId} (normal : store.normalName value name = name)
    (shows : store.slot value name = .composite id) :
    store.inner? value name = some (.composite id) := by
  rcases store.slot_cases value name with entry | null | ⟨n, length⟩
  · rw [normal, shows] at entry
    exact entry
  · cases shows.symm.trans null
  · cases shows.symm.trans length

/-- What stands in a slot is what the slot shows. -/
theorem slot_of_inner? (entry : store.inner? value name = some part) :
    store.slot value name = part := by
  unfold inner? at entry
  split at entry
  · rename_i array
    rw [slot_array array, entry]
    rfl
  · rename_i object
    rw [slot_object object, SlotName.text, entry]
    rfl
  · cases entry

theorem NaNFree.self (free : store.NaNFree value) : value.isNaN = false :=
  @free [] value rfl

/-- What a slot shows of a value without NaN is not NaN. -/
theorem NaNFree.slot {store : Store} {value part : Value} (free : store.NaNFree value)
    {path : List SlotName} (there : store.part? value path = some part) (name : SlotName) :
    (store.slot part name).isNaN = false := by
  rcases store.slot_cases part name with entry | null | ⟨n, length⟩
  · exact free (part?_concat.mpr ⟨part, there, entry⟩)
  · rw [null]
    rfl
  · rw [length]
    exact Double.not_isNaN_ofInt n

/-! ### Flat values -/

theorem part?_of_plain (plain : store.contents? value = none)
    (there : store.part? value path = some part) : path = [] ∧ part = value := by
  cases path with
  | nil =>
    cases there
    exact ⟨rfl, rfl⟩
  | cons name rest => simp [part?, inner?, plain] at there

theorem contents?_of_plain (plain : ∀ id, value ≠ .composite id) : store.contents? value = none := by
  cases value with
  | composite id => exact absurd rfl (plain id)
  | _ => rfl

theorem part?_ne_composite (plain : ∀ id, value ≠ .composite id) (id : CompositeId) :
    store.part? value path ≠ some (.composite id) := by
  intro there
  obtain ⟨_, same⟩ := part?_of_plain (contents?_of_plain plain) there
  exact plain id same.symm

theorem nanFree_of_plain (plain : store.contents? value = none) (proper : value.isNaN = false) :
    store.NaNFree value := by
  intro path part there
  obtain ⟨_, rfl⟩ := part?_of_plain plain there
  exact proper

/-- The parts of an array of primitives are the array and its elements. -/
theorem part?_of_flat (array : store.contents? value = some (.array items))
    (plain : ∀ item ∈ items, store.contents? item = none)
    (there : store.part? value path = some part) : (path = [] ∧ part = value) ∨ part ∈ items := by
  cases path with
  | nil =>
    cases there
    exact Or.inl ⟨rfl, rfl⟩
  | cons name rest =>
    obtain ⟨next, entry, onward⟩ := Option.bind_eq_some_iff.mp there
    cases name with
    | key characters => simp [inner?, array] at entry
    | index position =>
      rw [inner?_array array] at entry
      have member := List.mem_of_getElem? entry
      obtain ⟨_, rfl⟩ := part?_of_plain (plain next member) onward
      exact Or.inr member

/-- An array of primitives is unshared and free of NaN, if its elements are primitives and none of
them is NaN. -/
theorem unshared_of_flat (array : store.contents? value = some (.array items))
    (plain : ∀ item ∈ items, ∀ id, item ≠ .composite id) : store.Unshared value := by
  have simple : ∀ item ∈ items, store.contents? item = none := by
    intro item member
    refine Option.eq_none_iff_forall_ne_some.mpr fun contents present => ?_
    obtain ⟨id, composite⟩ := exists_id_of_contents? present
    exact plain item member id composite
  intro path other id first second
  rcases part?_of_flat array simple first with ⟨rfl, _⟩ | member
  · rcases part?_of_flat array simple second with ⟨rfl, _⟩ | member
    · rfl
    · exact absurd rfl (plain _ member id)
  · exact absurd rfl (plain _ member id)

/-- A store of one array fits if the array does. -/
theorem fits_of_one (small : items.length < indexBound) : Fits ⟨#[.array items]⟩ := by
  intro value others array
  cases value with
  | composite id =>
    cases id with
    | zero =>
      cases array
      exact small
    | succ id => simp [contents?] at array
  | _ => cases array

/-! ### Writing to one composite -/

/-- A part of one of several values. -/
def PartOf (store : Store) (sources : List Value) (part : Value) : Prop :=
  ∃ source ∈ sources, ∃ path, store.part? source path = some part

theorem PartOf.entry {store : Store} {sources : List Value} {holder part : Value}
    {name : SlotName} (known : store.PartOf sources holder)
    (entry : store.inner? holder name = some part) : store.PartOf sources part := by
  obtain ⟨source, member, path, there⟩ := known
  exact ⟨source, member, path ++ [name], part?_concat.mpr ⟨holder, there, entry⟩⟩

section Write

variable {before after : Store} {target : Value} {sources : List Value}
  (others : ∀ {other}, other ≠ target → after.contents? other = before.contents? other)
  (entries : ∀ {name part}, after.inner? target name = some part →
    part ∈ sources ∨ ∃ old, before.inner? target old = some part)

include others entries

/-- After a write to one composite, what stands in a slot of a known part is a known part, if
what was written is known. -/
theorem PartOf.entry_of_write {holder : Value} (known : before.PartOf sources holder)
    (entry : after.inner? holder name = some part) : before.PartOf sources part := by
  by_cases same : holder = target
  · subst same
    rcases entries entry with new | ⟨old, oldEntry⟩
    · exact ⟨part, new, [], rfl⟩
    · exact known.entry oldEntry
  · rw [inner?_congr (others same)] at entry
    exact known.entry entry

/-- After a write to one composite, the parts of a known part are known, if what was written
is. -/
theorem PartOf.part_of_write {start : Value} (known : before.PartOf sources start)
    (there : after.part? start path = some part) : before.PartOf sources part := by
  induction path generalizing start with
  | nil =>
    cases there
    exact known
  | cons name rest ih =>
    obtain ⟨next, entry, onward⟩ := Option.bind_eq_some_iff.mp there
    exact ih (known.entry_of_write others entries entry) onward

/-- No NaN comes into a value unless it is written there. -/
theorem NaNFree.of_write {value : Value} (member : value ∈ sources)
    (free : ∀ source ∈ sources, before.NaNFree source) : after.NaNFree value := by
  intro path part there
  have known : before.PartOf sources value := ⟨value, member, [], rfl⟩
  obtain ⟨source, inSources, old, oldThere⟩ := known.part_of_write others entries there
  exact free source inSources oldThere

end Write

end Store

end CodeTree
