/-
Worlds in good order. Their cursors fit the tree, which is held, every composite of the tree is in
the store, and arrays have no more elements than there are indices. A composite that is newly
built comes into the store beside the tree, and what can stand in a slot of the tree can be put
there: both leave the world in good order.
-/

import CodeTree.Cursor.Direct
import CodeTree.Proofs.Exchanging

namespace CodeTree

variable {path : List SlotName} {value : Value}

variable {store : Store} {c : CursorId} {front : List SlotName} {slot : SlotName}

namespace Store

/-! ### Whole values -/

/-- Every composite of a value is in the store. -/
def Whole (store : Store) (value : Value) : Prop :=
  ∀ path id, store.part? value path = some (.composite id) →
    store.contents? (.composite id) ≠ none

theorem whole_of_plain (plain : ∀ id, value ≠ .composite id) : store.Whole value :=
  fun _ id there => absurd there (part?_ne_composite plain id)

theorem Whole.part {value part : Value} {path : List SlotName} (whole : store.Whole value)
    (there : store.part? value path = some part) : store.Whole part := by
  intro rest id deeper
  refine whole (path ++ rest) id ?_
  rw [part?_append, there, Option.bind_some, deeper]

theorem NaNFree.part {value part : Value} {path : List SlotName} (free : store.NaNFree value)
    (there : store.part? value path = some part) : store.NaNFree part := by
  intro rest inner deeper
  refine @free (path ++ rest) inner ?_
  rw [part?_append, there, Option.bind_some, deeper]

theorem Spares.whole {other : Store} (spares : store.Spares other value) (whole : store.Whole value) :
    other.Whole value := by
  intro path id there
  rw [spares.part?] at there
  rw [spares there]
  exact whole path id there

/-- A value that a tree can be made of. -/
structure Intact (store : Store) (value : Value) : Prop where
  unshared : store.Unshared value
  free : store.NaNFree value
  whole : store.Whole value

theorem Intact.part {value part : Value} {path : List SlotName} (intact : store.Intact value)
    (there : store.part? value path = some part) : store.Intact part :=
  ⟨Unshared.part intact.unshared there, NaNFree.part intact.free there, intact.whole.part there⟩

theorem Spares.intact {other : Store} (spares : store.Spares other value)
    (intact : store.Intact value) : other.Intact value :=
  ⟨spares.unshared intact.unshared, spares.free intact.free, spares.whole intact.whole⟩

theorem intact_of_plain (plain : ∀ id, value ≠ .composite id) (proper : value.isNaN = false) :
    store.Intact value :=
  ⟨fun first _ => absurd first (part?_ne_composite plain _),
    nanFree_of_plain (contents?_of_plain plain) proper, whole_of_plain plain⟩

/-- A value stays whole when values are written into one of its composites that are whole. -/
theorem Whole.of_write {before after : Store} {target : Value} {sources : List Value}
    (others : ∀ {other}, other ≠ target → after.contents? other = before.contents? other)
    (entries : ∀ {name part}, after.inner? target name = some part →
      part ∈ sources ∨ ∃ old, before.inner? target old = some part)
    (written : after.contents? target ≠ none) {value : Value} (member : value ∈ sources)
    (whole : ∀ source ∈ sources, before.Whole source) : after.Whole value := by
  intro path id there
  have known : before.PartOf sources value := ⟨value, member, [], rfl⟩
  obtain ⟨source, inSources, old, oldThere⟩ := known.part_of_write others entries there
  by_cases same : Value.composite id = target
  · rw [same]
    exact written
  · rw [others same]
    exact whole source inSources _ _ oldThere

/-! ### Building -/

/-- The store with one composite more. -/
def grown (store : Store) (contents : Composite) : Store := ⟨store.composites.push contents⟩

section Grown

variable (store : Store) (contents : Composite)

theorem contents?_grown_self :
    (store.grown contents).contents? (.composite store.composites.size) = some contents := by
  simp [grown, contents?]

theorem contents?_grown_other (different : value ≠ .composite store.composites.size) :
    (store.grown contents).contents? value = store.contents? value := by
  cases value with
  | composite id =>
    have apart : id ≠ store.composites.size := fun same => different (congrArg _ same)
    simp [grown, contents?, Array.getElem?_push, apart]
  | _ => rfl

theorem contents?_size : store.contents? (.composite store.composites.size) = none := by
  simp [contents?]

variable {store}

/-- A new composite does not stand in a whole value. -/
theorem Whole.ne_size {part : Value} (whole : store.Whole value)
    (there : store.part? value path = some part) : part ≠ .composite store.composites.size := by
  rintro rfl
  exact whole _ _ there store.contents?_size

theorem Whole.contents?_grown (whole : store.Whole value) :
    store.Spares (store.grown contents) value :=
  fun there => contents?_grown_other store contents (whole.ne_size there)

theorem Whole.part?_grown (whole : store.Whole value) (path : List SlotName) :
    (store.grown contents).part? value path = store.part? value path :=
  Spares.part? (whole.contents?_grown contents) path

/-- The parts of a new composite. -/
theorem part_of_grown {contents : Composite} {part : Value}
    (whole : ∀ {name value}, contents.inner? name = some value → store.Whole value)
    (there : (store.grown contents).part? (.composite store.composites.size) path = some part) :
    path = [] ∧ part = .composite store.composites.size ∨
      ∃ name rest value, path = name :: rest ∧ contents.inner? name = some value ∧
        store.part? value rest = some part := by
  cases path with
  | nil =>
    cases there
    exact .inl ⟨rfl, rfl⟩
  | cons name rest =>
    obtain ⟨value, entry, onward⟩ := Option.bind_eq_some_iff.mp there
    rw [inner?_of_contents (store.contents?_grown_self contents)] at entry
    rw [(whole entry).part?_grown] at onward
    exact .inr ⟨name, rest, value, rfl, entry, onward⟩

/-- A tree can be made of a new composite if one can be made of what it holds, and no composite
stands in two of its slots. -/
theorem intact_grown {contents : Composite}
    (intact : ∀ {name value}, contents.inner? name = some value → store.Intact value)
    (apart : ∀ {name other value twin path place id}, contents.inner? name = some value →
      contents.inner? other = some twin → store.part? value path = some (.composite id) →
      store.part? twin place = some (.composite id) → name = other) :
    (store.grown contents).Intact (.composite store.composites.size) := by
  have whole {name : SlotName} {value : Value} (entry : contents.inner? name = some value) :=
    (intact entry).whole
  refine ⟨?_, ?_, ?_⟩
  · intro path other id first second
    rcases part_of_grown whole first with ⟨rfl, top⟩ | ⟨_, _, _, rfl, entry, reached⟩
    · rcases part_of_grown whole second with ⟨rfl, _⟩ | ⟨_, _, _, _, entry, reached⟩
      · rfl
      · exact absurd top ((whole entry).ne_size reached)
    · rcases part_of_grown whole second with ⟨_, top⟩ | ⟨_, _, _, rfl, entryToo, reachedToo⟩
      · exact absurd top ((whole entry).ne_size reached)
      · cases apart entry entryToo reached reachedToo
        cases entry.symm.trans entryToo
        rw [(intact entry).unshared reached reachedToo]
  · intro path part there
    rcases part_of_grown whole there with ⟨_, rfl⟩ | ⟨_, _, _, _, entry, reached⟩
    · rfl
    · exact (intact entry).free reached
  · intro path id there
    rcases part_of_grown whole there with ⟨_, top⟩ | ⟨_, _, _, _, entry, reached⟩
    · rw [top, contents?_grown_self]
      exact Option.some_ne_none _
    · rw [(whole entry).contents?_grown contents reached]
      exact whole entry _ id reached

theorem Fits.grown (fits : store.Fits)
    (small : ∀ {items}, contents = .array items → items.length < indexBound) :
    (store.grown contents).Fits := by
  intro value items array
  by_cases same : value = .composite store.composites.size
  · rw [same, contents?_grown_self] at array
    exact small (Option.some.inj array)
  · rw [contents?_grown_other _ _ same] at array
    exact fits array

end Grown

end Store

namespace World

/-! ### Good order -/

/-- The cursors of a world fit its tree, the tree is held and whole, and its arrays fit. -/
structure Orderly (world : World) : Prop where
  coherent : Coherent 0 world
  held : world.isHeld 0 = true
  fits : world.store.Fits
  whole : world.store.Whole (world.value 0)

/-- The world with one composite more in the store. -/
def grown (world : World) (contents : Composite) : World :=
  { world with store := world.store.grown contents }

theorem follow?_grown (world : World) (contents : Composite) (c : CursorId)
    (path : List SlotName) : (world.grown contents).follow? c path = world.follow? c path :=
  follow?_withStore world _ c path

/-- A cursor that is found at the end of a path if it stands at a composite. -/
structure Stands (world : World) (path : List SlotName) (d : CursorId) : Prop where
  inside : d < world.cursors.size
  leads : ∀ {id}, world.value d = .composite id → world.follow? 0 path = some d

/-- From one world to another, the cursors of the keys at the top have stayed, except for those
that have come to stand at nothing, and for that of the length of an array. -/
def KeepsTop (before after : World) : Prop :=
  ∀ {key d}, key ≠ "length" → before.follow? 0 [.key key] = some d → after.Stands [.key key] d

/-- A path of one key does not lead through another slot. -/
theorem movePath_top {key : String} (counted : key ≠ "length")
    (apart : front ++ [slot] ≠ [.key key]) (count : Nat) :
    SlotName.movePath (slot.replaced count) front [.key key] = some [.key key] := by
  cases front with
  | nil =>
    have different : SlotName.key key ≠ slot := fun same => apart (by rw [← same]; rfl)
    have goes : slot.replaced count (.key key) = some (.key key) := by
      cases slot with
      | index position => exact if_neg counted
      | key other => exact if_neg different
    rw [SlotName.movePath, goes]
    rfl
  | cons first front =>
    refine SlotName.movePath_of_away fun name rest equal => ?_
    have length := congrArg List.length equal
    simp at length

namespace Orderly

variable {world : World} (orderly : Orderly world)

include orderly

theorem inside (leads : world.follow? 0 path = some c) : c < world.cursors.size :=
  orderly.coherent.sound.lt_size_of_follow orderly.coherent.present leads

theorem alive (leads : world.follow? 0 path = some c) : world.isAlive c = true :=
  orderly.coherent.sound.isAlive_of_follow (isAlive_of_isHeld orderly.held) leads

theorem intact : world.store.Intact (world.value 0) :=
  ⟨orderly.coherent.unshared, orderly.coherent.free, orderly.whole⟩

/-- Building a composite does not disturb the tree. -/
theorem grown (contents : Composite)
    (small : ∀ {items}, contents = .array items → items.length < indexBound) :
    Orderly (world.grown contents) where
  coherent := orderly.coherent.elsewhere (orderly.whole.contents?_grown contents)
  held := orderly.held
  fits := Store.Fits.grown contents orderly.fits small
  whole := Store.Spares.whole (orderly.whole.contents?_grown contents) orderly.whole

theorem part?_grown (contents : Composite) (path : List SlotName) :
    (world.grown contents).store.part? ((world.grown contents).value 0) path =
      world.store.part? (world.value 0) path :=
  orderly.whole.part?_grown contents path

theorem tree_grown (contents : Composite) : (world.grown contents).tree = world.tree :=
  Store.Spares.tree (orderly.whole.contents?_grown contents) orderly.coherent.unshared

variable {parent : CursorId} {contents : Composite}
  (standing : world.Standing front slot c parent contents) {values : List Value}
  (takes : contents.Takes slot values)
  (admits : world.store.Admits (world.value 0) (front ++ [slot]) values)
  (free : ∀ value ∈ values, world.store.NaNFree value)
  (whole : ∀ value ∈ values, world.store.Whole value)
  (small : ∀ {items}, contents = .array items → items.length + values.length ≤ indexBound)

include standing takes admits free whole small

/-- Values that can stand in a slot of the tree take the place of what stood there. -/
theorem replace : ∃ cs after, Action.replace c values world = .ok cs after ∧ Orderly after ∧
    Exchanges front slot values world after ∧ KeepsTop world after ∧
    (values ≠ [] → after.follow? 0 (front ++ [slot]) = some c) := by
  have coherent := orderly.coherent
  obtain ⟨cs, after, result, replacement, quiet, coherentAfter, exchanges, keeps, gone⟩ :=
    coherent.replace orderly.held standing takes admits free orderly.fits small
  refine ⟨cs, after, result,
    ⟨coherentAfter, quiet.isHeld coherent.sound orderly.held, ?_, ?_⟩, exchanges, ?_,
    fun some => ?_⟩
  · exact @Store.hasRoom_of_exchange _ _ _ _ _ _ 0 takes replacement.written replacement.others
      orderly.fits small
  · rw [exchanges.root]
    refine Store.Whole.of_write replacement.others
      (fun entry => (replacement.source standing takes entry).imp_left (List.mem_cons_of_mem _)) ?_
      (List.mem_cons_self : world.value 0 ∈ world.value 0 :: values) ?_
    · rw [replacement.written]
      exact Option.some_ne_none _
    · intro source member
      rcases List.mem_cons.mp member with rfl | new
      · exact orderly.whole
      · exact whole source new
  · intro key d counted leads
    refine ⟨Nat.lt_of_lt_of_le (orderly.inside leads) quiet.size, fun here => ?_⟩
    by_cases same : front ++ [slot] = [.key key]
    · obtain rfl : front = [] := by simpa using congrArg List.length same
      obtain rfl : slot = .key key := by simpa using same
      cases standing.toParent
      obtain rfl : c = d := Option.some.inj (standing.kept.symm.trans (by simpa [follow?] using leads))
      by_cases empty : values = []
      · rw [gone empty ⟨key, rfl⟩] at here
        cases here
      · simpa [follow?] using keeps empty
    · exact (exchanges.survives leads (movePath_top counted same _)).1
  · refine follow?_concat.mpr ⟨parent, ?_, keeps some⟩
    exact (exchanges.survives standing.toParent (SlotName.movePath_self _ _)).1

end Orderly

end World

end CodeTree
