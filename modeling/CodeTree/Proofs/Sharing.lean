/-
When a write leaves a tree unshared. A composite that is written to stands at one place of an
unshared tree, and every path that does not lead through its slots leads where it led. So only
what stands in its slots afterwards can come to be shared: with the rest of the tree, if it
stood elsewhere in the tree before, or with what else was written. To put values into one slot
of a composite is harmless if their composites stand nowhere in the tree but below that slot,
and none of them twice among the values.
-/

import CodeTree.Proofs.Edits

namespace CodeTree

variable {after before : Store} {root : Value} {id : CompositeId} {path place : List SlotName}

namespace Store

/-! ### Paths after a write -/

section Write

variable
  (others : ∀ {other}, other ≠ .composite id → after.contents? other = before.contents? other)
  (unshared : before.Unshared root) (there : before.part? root place = some (.composite id))

include others unshared there

/-- A path that does not lead through the slots of the written composite leads where it led. -/
theorem part?_of_away (away : ∀ name rest, path ≠ place ++ name :: rest) :
    after.part? root path = before.part? root path := by
  induction path using List.reverseRecOn with
  | nil => rfl
  | append_singleton front name ih =>
    have same := ih fun step rest equal =>
      away step (rest ++ [name]) (by rw [equal, List.append_assoc, List.cons_append])
    rw [part?_append, part?_append, same]
    cases reached : before.part? root front with
    | none => rfl
    | some holder =>
      have apart : holder ≠ .composite id := by
        rintro rfl
        exact away name [] (by rw [unshared reached there])
      simp only [Option.bind_some, part?, inner?_congr (others apart)]

theorem part?_place : after.part? root place = some (.composite id) := by
  refine (part?_of_away others unshared there fun name rest equal => ?_).trans there
  have length := congrArg List.length equal
  rw [List.length_append, List.length_cons] at length
  omega

variable
  (below : ∀ {name part path other inner}, after.inner? (.composite id) name = some part →
    before.part? part path = some (.composite inner) →
    before.part? root other = some (.composite inner) → ∃ step rest, other = place ++ step :: rest)

include below

omit unshared in
/-- What was written does not hold the composite itself, and so it has the parts that it had. -/
theorem part?_of_written {name : SlotName} {part : Value}
    (entry : after.inner? (.composite id) name = some part) (path : List SlotName) :
    after.part? part path = before.part? part path := by
  refine Spares.part? (fun {path deeper} reached => others ?_) path
  rintro rfl
  obtain ⟨step, rest, equal⟩ := below entry reached there
  have length := congrArg List.length equal
  rw [List.length_append, List.length_cons] at length
  omega

/-- Where a composite stands after the write: below what was written, or where it stood. -/
theorem composite_of_write {inner : CompositeId}
    (reached : after.part? root path = some (.composite inner)) :
    (∃ name part rest, path = place ++ name :: rest ∧
      after.inner? (.composite id) name = some part ∧
      before.part? part rest = some (.composite inner)) ∨
    before.part? root path = some (.composite inner) ∧
      ∀ name rest, path ≠ place ++ name :: rest := by
  by_cases through : ∃ name rest, path = place ++ name :: rest
  · obtain ⟨name, rest, rfl⟩ := through
    rw [part?_append, part?_place others unshared there, Option.bind_some] at reached
    obtain ⟨part, entry, onward⟩ := Option.bind_eq_some_iff.mp reached
    rw [part?_of_written others there below entry] at onward
    exact .inl ⟨name, part, rest, rfl, entry, onward⟩
  · have away : ∀ name rest, path ≠ place ++ name :: rest :=
      fun name rest equal => through ⟨name, rest, equal⟩
    rw [part?_of_away others unshared there away] at reached
    exact .inr ⟨reached, away⟩

/-- A write leaves a value unshared, if whatever was written stood below the composite or not at
all in the value, and no composite was written twice. -/
theorem Unshared.of_write
    (apart : ∀ {name other part otherPart path otherPath inner},
      after.inner? (.composite id) name = some part →
      after.inner? (.composite id) other = some otherPart →
      before.part? part path = some (.composite inner) →
      before.part? otherPart otherPath = some (.composite inner) → name = other ∧ path = otherPath) :
    after.Unshared root := by
  intro path other inner first second
  rcases composite_of_write others unshared there below first with
    ⟨name, part, rest, rfl, entry, onward⟩ | ⟨stood, away⟩
  · rcases composite_of_write others unshared there below second with
      ⟨name', part', rest', rfl, entry', onward'⟩ | ⟨stood', away'⟩
    · obtain ⟨rfl, rfl⟩ := apart entry entry' onward onward'
      rfl
    · obtain ⟨step, beyond, equal⟩ := below entry onward stood'
      exact absurd equal (away' step beyond)
  · rcases composite_of_write others unshared there below second with
      ⟨name', part', rest', rfl, entry', onward'⟩ | ⟨stood', _⟩
    · obtain ⟨step, beyond, equal⟩ := below entry' onward' stood
      exact absurd equal (away step beyond)
    · exact unshared stood stood'

end Write

/-! ### Values for one slot -/

theorem of_getElem?_singleton {value other : Value} {position : Nat}
    (there : [value][position]? = some other) : position = 0 ∧ other = value := by
  simpa [List.getElem?_singleton, eq_comm] using there

/-- Values that can stand in a slot of a tree: their composites stand nowhere in the tree but in
the slot and below it, and no composite stands twice among them. -/
structure Admits (store : Store) (root : Value) (slot : List SlotName) (values : List Value) :
    Prop where
  outside : ∀ {value path other id}, value ∈ values →
    store.part? value path = some (.composite id) →
    store.part? root other = some (.composite id) → slot <+: other
  apart : ∀ {position place : Nat} {value other path otherPath id},
    values[position]? = some value →
    values[place]? = some other → store.part? value path = some (.composite id) →
    store.part? other otherPath = some (.composite id) → position = place ∧ path = otherPath

theorem admits_nil (store : Store) (root : Value) (slot : List SlotName) :
    store.Admits root slot [] := ⟨nofun, nofun⟩

/-- A tree stays unshared when the values it admits for a slot take the place of what stood
there. -/
theorem Admits.unshared {slot : SlotName} {values : List Value}
    (admits : before.Admits root (place ++ [slot]) values)
    (others : ∀ {other}, other ≠ .composite id → after.contents? other = before.contents? other)
    (unshared : before.Unshared root) (there : before.part? root place = some (.composite id))
    (entries : ∀ {name part}, after.inner? (.composite id) name = some part →
      (∃ old, before.inner? (.composite id) old = some part ∧
      slot.replaced values.length old = some name) ∨
      ∃ position, values[position]? = some part ∧ name = slot.further position) :
    after.Unshared root := by
  have stood {old : SlotName} {part : Value} (entry : before.inner? (.composite id) old = some part)
      (path : List SlotName) : before.part? root (place ++ old :: path) = before.part? part path := by
    rw [part?_append, there, Option.bind_some, part?_cons entry]
  -- A slot that stays is not the slot that the values come into.
  have clash {old name : SlotName} {part value : Value} {path deeper : List SlotName}
      {inner : CompositeId} (entry : before.inner? (.composite id) old = some part)
      (goes : slot.replaced values.length old = some name)
      (reached : before.part? part path = some (.composite inner)) (member : value ∈ values)
      (brought : before.part? value deeper = some (.composite inner)) : False := by
    obtain ⟨rest, equal⟩ := admits.outside member brought ((stood entry path).trans reached)
    rw [List.append_assoc] at equal
    have same := (List.cons.inj (List.append_cancel_left equal)).1
    rw [← same, SlotName.replaced_self] at goes
    cases goes
  refine @Unshared.of_write _ _ _ _ _ others unshared there ?_ ?_
  · intro name part path other inner entry reached elsewhere
    rcases entries entry with ⟨old, oldEntry, _⟩ | ⟨position, new, _⟩
    · exact ⟨old, path, unshared elsewhere ((stood oldEntry path).trans reached)⟩
    · obtain ⟨rest, equal⟩ := admits.outside (List.mem_of_getElem? new) reached elsewhere
      exact ⟨slot, rest, by rw [← equal, List.append_assoc, List.singleton_append]⟩
  · intro name other part otherPart path otherPath inner entry otherEntry reached otherReached
    rcases entries entry with ⟨old, oldEntry, goes⟩ | ⟨position, new, named⟩
    · rcases entries otherEntry with ⟨old', oldEntry', goes'⟩ | ⟨position', new', _⟩
      · have equal := List.append_cancel_left (unshared ((stood oldEntry path).trans reached)
          ((stood oldEntry' otherPath).trans otherReached))
        obtain ⟨rfl, rfl⟩ := List.cons.inj equal
        exact ⟨Option.some.inj (goes.symm.trans goes'), rfl⟩
      · exact (clash oldEntry goes reached (List.mem_of_getElem? new') otherReached).elim
    · rcases entries otherEntry with ⟨old', oldEntry', goes'⟩ | ⟨position', new', named'⟩
      · exact (clash oldEntry' goes' otherReached (List.mem_of_getElem? new) reached).elim
      · obtain ⟨rfl, rfl⟩ := admits.apart new new' reached otherReached
        exact ⟨named.trans named'.symm, rfl⟩

end Store

end CodeTree
