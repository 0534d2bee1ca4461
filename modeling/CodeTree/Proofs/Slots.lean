/-
What a write to the store changes. A write goes to one composite: its contents become what was
written, and every other composite keeps its own, so that slots of other values read as before.
-/

import CodeTree.Cursor.SlotName
import CodeTree.Proofs.Identity

namespace CodeTree

namespace Entries

variable {κ α : Type} [DecidableEq κ]

variable {entries : List (κ × α)}

/-- Writing what stands under a key already changes nothing. -/
theorem put_of_lookup {key : κ} {value : α} (present : lookup key entries = some value) :
    put key value entries = entries := by
  induction entries with
  | nil => simp [lookup] at present
  | cons head rest ih =>
    obtain ⟨other, old⟩ := head
    by_cases equal : key = other
    · subst equal
      simp only [lookup, if_true, Option.some.injEq] at present
      simp [put, present]
    · simp only [lookup, if_neg equal] at present
      simp [put, equal, ih present]

theorem lookup_eq_none {key : κ} : lookup key entries = none ↔ key ∉ entries.map Prod.fst := by
  induction entries with
  | nil => simp [lookup]
  | cons head rest ih =>
    obtain ⟨other, old⟩ := head
    by_cases equal : key = other
    · simp [lookup, equal]
    · simp [lookup, equal, ih]

/-- Where no key occurs twice, the entries are what the keys look up. -/
theorem mem_iff_lookup {key : κ} {value : α} (distinct : (entries.map Prod.fst).Nodup) :
    (key, value) ∈ entries ↔ lookup key entries = some value := by
  induction entries with
  | nil => simp [lookup]
  | cons head rest ih =>
    obtain ⟨other, old⟩ := head
    simp only [List.map_cons, List.nodup_cons] at distinct
    rw [List.mem_cons, ih distinct.2, Prod.mk.injEq]
    by_cases equal : key = other
    · subst equal
      have absent : lookup key rest = none := lookup_eq_none.mpr distinct.1
      simp [lookup, absent, eq_comm]
    · simp [lookup, equal]

theorem put_of_absent {key : κ} (absent : lookup key entries = none) (value : α) :
    put key value entries = entries ++ [(key, value)] := by
  induction entries with
  | nil => rfl
  | cons head rest ih =>
    obtain ⟨other, old⟩ := head
    rw [lookup] at absent
    split at absent
    · cases absent
    · rename_i different
      rw [put, if_neg different, ih absent, List.cons_append]

end Entries

namespace Assoc

variable {κ α : Type} [DecidableEq κ]

theorem insert_of_get? {map : Assoc κ α} {key : κ} {value : α}
    (present : map.get? key = some value) : map.insert key value = map := by
  obtain ⟨entries, distinct⟩ := map
  have unchanged : Entries.put key value entries = entries := Entries.put_of_lookup present
  simp [insert, unchanged]

theorem mem_entries {map : Assoc κ α} {key : κ} {value : α} :
    (key, value) ∈ map.entries ↔ map.get? key = some value :=
  Entries.mem_iff_lookup map.distinct

theorem entries_foldl (map : Assoc κ α) (pairs : List (κ × α))
    (distinct : ((map.entries ++ pairs).map Prod.fst).Nodup) :
    (pairs.foldl (fun map pair => map.insert pair.1 pair.2) map).entries = map.entries ++ pairs := by
  induction pairs generalizing map with
  | nil => exact (List.append_nil _).symm
  | cons pair rest ih =>
    have absent : Entries.lookup pair.1 map.entries = none := by
      rw [Entries.lookup_eq_none]
      rw [List.map_append, List.nodup_append] at distinct
      exact fun twice => distinct.2.2 _ twice _ List.mem_cons_self rfl
    have inserted : (map.insert pair.1 pair.2).entries = map.entries ++ [pair] :=
      Entries.put_of_absent absent pair.2
    have still : (((map.insert pair.1 pair.2).entries ++ rest).map Prod.fst).Nodup := by
      rwa [inserted, List.append_assoc]
    rw [List.foldl_cons, ih _ still, inserted, List.append_assoc]
    rfl

theorem entries_ofList {pairs : List (κ × α)} (distinct : (pairs.map Prod.fst).Nodup) :
    (Assoc.ofList pairs).entries = pairs :=
  entries_foldl .empty pairs distinct

end Assoc

namespace Store

variable {value other : Value} {store : Store} {items : List Value} {members : Assoc String Value}

/-! ### Contents after a write -/

/-- What has contents is a composite. -/
theorem exists_id_of_contents? {contents : Composite}
    (present : store.contents? value = some contents) : ∃ id, value = .composite id := by
  cases value with
  | composite id => exact ⟨id, rfl⟩
  | _ => simp [contents?] at present

theorem contents?_modify (store : Store) (id : CompositeId) (change : Composite → Composite)
    (value : Value) : contents? ⟨store.composites.modify id change⟩ value =
      if value = .composite id then (store.contents? value).map change
      else store.contents? value := by
  cases value with
  | composite other =>
    simp only [contents?, Array.getElem?_modify, Value.composite.injEq, eq_comm]
  | _ => rfl

theorem contents?_modifyItems_self (array : store.contents? value = some (.array items))
    (change : List Value → List Value) :
    (store.modifyItems value change).contents? value = some (.array (change items)) := by
  obtain ⟨id, rfl⟩ := exists_id_of_contents? array
  rw [modifyItems, contents?_modify, if_pos rfl, array]
  rfl

theorem contents?_modifyItems_other (store : Store) (different : other ≠ value)
    (change : List Value → List Value) :
    (store.modifyItems value change).contents? other = store.contents? other := by
  cases value with
  | composite id => rw [modifyItems, contents?_modify, if_neg different]
  | _ => rfl

theorem contents?_modifyMembers_self (object : store.contents? value = some (.object members))
    (change : Assoc String Value → Assoc String Value) :
    (store.modifyMembers value change).contents? value = some (.object (change members)) := by
  obtain ⟨id, rfl⟩ := exists_id_of_contents? object
  rw [modifyMembers, contents?_modify, if_pos rfl, object]
  rfl

theorem contents?_modifyMembers_other (store : Store) (different : other ≠ value)
    (change : Assoc String Value → Assoc String Value) :
    (store.modifyMembers value change).contents? other = store.contents? other := by
  cases value with
  | composite id => rw [modifyMembers, contents?_modify, if_neg different]
  | _ => rfl

/-- A write that changes nothing in the composite changes nothing at all. -/
theorem modify_of_fixed {composites : Array Composite} {id : CompositeId} {contents : Composite}
    (present : composites[id]? = some contents) {change : Composite → Composite}
    (fixed : change contents = contents) : composites.modify id change = composites := by
  refine Array.ext_getElem? fun other => ?_
  rw [Array.getElem?_modify]
  split
  · rename_i same
    rw [← same, present, Option.map_some, fixed]
  · rfl

theorem modifyItems_of_fixed (array : store.contents? value = some (.array items))
    {change : List Value → List Value} (fixed : change items = items) :
    store.modifyItems value change = store := by
  cases value with
  | composite id =>
    exact congrArg Store.mk (modify_of_fixed array (congrArg Composite.array fixed))
  | _ => rfl

theorem modifyMembers_of_fixed (object : store.contents? value = some (.object members))
    {change : Assoc String Value → Assoc String Value} (fixed : change members = members) :
    store.modifyMembers value change = store := by
  cases value with
  | composite id =>
    exact congrArg Store.mk (modify_of_fixed object (congrArg Composite.object fixed))
  | _ => rfl

theorem items?_eq_some :
    store.items? value = some items ↔ store.contents? value = some (.array items) := by
  unfold items?
  split <;> simp_all

/-! ### Slots -/

/-- Slots are read off the contents alone. -/
theorem slot_congr {later : Store} (equal : store.contents? value = later.contents? other)
    (name : SlotName) : store.slot value name = later.slot other name := by
  unfold slot
  rw [equal]

theorem normalName_congr {later : Store} (equal : store.contents? value = later.contents? other)
    (name : SlotName) : store.normalName value name = later.normalName other name := by
  unfold normalName
  rw [equal]

section Array

variable (array : store.contents? value = some (.array items))

include array

theorem slot_array (position : Nat) :
    store.slot value (.index position) = items[position]?.getD .null := by
  simp [slot, array]

theorem slot_length : store.slot value .length = .number (.ofInt items.length) := by
  simp [slot, array, SlotName.length]

theorem slot_key_array {characters : String} (other : characters ≠ "length") :
    store.slot value (.key characters) = .null := by
  simp [slot, array, other]

end Array

theorem slot_object (object : store.contents? value = some (.object members)) (name : SlotName) :
    store.slot value name = (members.get? name.text).getD .null := by
  simp [slot, object]

theorem slot_of_none (plain : store.contents? value = none) (name : SlotName) :
    store.slot value name = .null := by
  simp [slot, plain]

theorem normalName_array (array : store.contents? value = some (.array items)) (name : SlotName) :
    store.normalName value name = name := by
  simp [normalName, array]

theorem normalName_object (object : store.contents? value = some (.object members))
    (name : SlotName) : store.normalName value name = .key name.text := by
  simp [normalName, object]

theorem normalName_of_none (plain : store.contents? value = none) (name : SlotName) :
    store.normalName value name = name := by
  simp [normalName, plain]

/-- A name is normal once it has been made so. -/
theorem normalName_normalName (store : Store) (value : Value) (name : SlotName) :
    store.normalName value (store.normalName value name) = store.normalName value name := by
  cases contents : store.contents? value with
  | none => simp only [normalName_of_none contents]
  | some composite =>
    cases composite with
    | array items => simp only [normalName_array contents]
    | object members => simp only [normalName_object contents, SlotName.text]

/-- A slot is the same by whichever of its names it goes. -/
theorem slot_normalName (store : Store) (value : Value) (name : SlotName) :
    store.slot value (store.normalName value name) = store.slot value name := by
  cases contents : store.contents? value with
  | none => rw [normalName_of_none contents]
  | some composite =>
    cases composite with
    | array items => rw [normalName_array contents]
    | object members => simp only [normalName_object contents, slot_object contents, SlotName.text]

end Store

end CodeTree
