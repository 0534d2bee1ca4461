/-
Finite maps that remember the order in which their keys first arrived. Records
of a tree and the child caches of cursors are both kept this way: writing to a
key that is present leaves it where it stands, writing to a new key appends it,
and erasing a key keeps the order of the others.
-/

namespace CodeTree

/-! ### Entry lists -/

namespace Entries

variable {κ α : Type} [DecidableEq κ]

/-- The value of the first entry under `key`. -/
def lookup (key : κ) : List (κ × α) → Option α
  | [] => none
  | (other, value) :: rest => if key = other then some value else lookup key rest

/-- Overwrites the entry under `key` where it stands, or appends a new one. -/
def put (key : κ) (value : α) : List (κ × α) → List (κ × α)
  | [] => [(key, value)]
  | (other, old) :: rest =>
    if key = other then (key, value) :: rest else (other, old) :: put key value rest

/-- Drops every entry under `key`. -/
def drop (key : κ) (entries : List (κ × α)) : List (κ × α) :=
  entries.filter (fun entry => decide (key ≠ entry.1))

/-- The keys after a write are the old keys, followed by the new one if it was absent. -/
theorem keys_put (key : κ) (value : α) (entries : List (κ × α)) :
    (put key value entries).map Prod.fst =
      if key ∈ entries.map Prod.fst then entries.map Prod.fst
      else entries.map Prod.fst ++ [key] := by
  induction entries with
  | nil => simp [put]
  | cons head rest ih =>
    obtain ⟨other, old⟩ := head
    by_cases equal : key = other
    · subst equal
      simp [put]
    · by_cases member : key ∈ rest.map Prod.fst
      · simp only [put, if_neg equal, List.map_cons, ih, if_pos member]
        rw [if_pos (List.mem_cons_of_mem _ member)]
      · simp only [put, if_neg equal, List.map_cons, ih, if_neg member]
        rw [if_neg (fun inside => (List.mem_cons.mp inside).elim equal member)]
        rfl

theorem nodup_keys_put (key : κ) (value : α) (entries : List (κ × α))
    (distinct : (entries.map Prod.fst).Nodup) : ((put key value entries).map Prod.fst).Nodup := by
  rw [keys_put]
  split
  · exact distinct
  · rename_i absent
    refine List.nodup_append.mpr ⟨distinct, by simp, ?_⟩
    intro one inOld other inNew equal
    rw [List.mem_singleton.mp inNew] at equal
    exact absent (equal ▸ inOld)

theorem nodup_keys_drop (key : κ) (entries : List (κ × α))
    (distinct : (entries.map Prod.fst).Nodup) : ((drop key entries).map Prod.fst).Nodup :=
  List.Nodup.sublist (List.Sublist.map _ List.filter_sublist) distinct

theorem lookup_put (key other : κ) (value : α) (entries : List (κ × α)) :
    lookup other (put key value entries) =
      if other = key then some value else lookup other entries := by
  induction entries with
  | nil => simp [put, lookup]
  | cons head rest ih =>
    obtain ⟨first, old⟩ := head
    by_cases equal : key = first
    · subst equal
      by_cases same : other = key <;> simp [put, lookup, same]
    · by_cases here : other = first
      · subst here
        simp [put, lookup, equal, Ne.symm equal]
      · simp [put, lookup, equal, here, ih]

theorem lookup_drop (key other : κ) (entries : List (κ × α)) :
    lookup other (drop key entries) = if other = key then none else lookup other entries := by
  induction entries with
  | nil => simp [drop, lookup]
  | cons head rest ih =>
    obtain ⟨first, value⟩ := head
    simp only [drop] at ih
    by_cases equal : key = first
    · subst equal
      by_cases same : other = key <;> simp_all [drop, lookup]
    · by_cases here : other = first
      · subst here
        simp [drop, lookup, equal, Ne.symm equal]
      · simp_all [drop, lookup]

end Entries

/-! ### Ordered maps -/

/-- A finite map whose entries stand in the order in which their keys first arrived. -/
structure Assoc (κ α : Type) where
  entries : List (κ × α)
  /-- No key occurs twice. -/
  distinct : (entries.map Prod.fst).Nodup

namespace Assoc

variable {κ α : Type}

def empty : Assoc κ α := ⟨[], List.nodup_nil⟩

instance : EmptyCollection (Assoc κ α) := ⟨empty⟩

instance : Inhabited (Assoc κ α) := ⟨empty⟩

def keys (map : Assoc κ α) : List κ := map.entries.map Prod.fst

def size (map : Assoc κ α) : Nat := map.entries.length

variable [DecidableEq κ]

def get? (map : Assoc κ α) (key : κ) : Option α := Entries.lookup key map.entries

def contains (map : Assoc κ α) (key : κ) : Bool := (map.get? key).isSome

/-- Writes `value` under `key`, keeping the place of a key that is present. -/
def insert (map : Assoc κ α) (key : κ) (value : α) : Assoc κ α :=
  ⟨Entries.put key value map.entries, Entries.nodup_keys_put key value map.entries map.distinct⟩

/-- Removes `key`, keeping the order of the other keys. -/
def erase (map : Assoc κ α) (key : κ) : Assoc κ α :=
  ⟨Entries.drop key map.entries, Entries.nodup_keys_drop key map.entries map.distinct⟩

/-- Inserts the pairs from left to right, so that a repeated key takes its last value. -/
def ofList (pairs : List (κ × α)) : Assoc κ α :=
  pairs.foldl (fun map pair => map.insert pair.1 pair.2) empty

@[simp] theorem get?_empty (key : κ) : (empty : Assoc κ α).get? key = none := rfl

theorem get?_insert (map : Assoc κ α) (key other : κ) (value : α) :
    (map.insert key value).get? other = if other = key then some value else map.get? other :=
  Entries.lookup_put key other value map.entries

@[simp] theorem get?_insert_self (map : Assoc κ α) (key : κ) (value : α) :
    (map.insert key value).get? key = some value := by
  simp [get?_insert]

theorem get?_erase (map : Assoc κ α) (key other : κ) :
    (map.erase key).get? other = if other = key then none else map.get? other :=
  Entries.lookup_drop key other map.entries

@[simp] theorem get?_erase_self (map : Assoc κ α) (key : κ) : (map.erase key).get? key = none := by
  simp [get?_erase]

end Assoc

end CodeTree
