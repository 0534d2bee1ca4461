/-
Looking without touching. Asking for a slot gives the cursor of the slot, and may add it; apart
from that nothing happens. So one can step along a path of the tree to its end
in a world in good order, and the tree, the cursors that were there and the paths to them stay.
-/

import CodeTree.Proofs.Wholeness

namespace CodeTree

namespace Store

theorem normalName_of_inner? {store : Store} {value part : Value} {name : SlotName}
    (entry : store.inner? value name = some part) : store.normalName value name = name := by
  unfold inner? at entry
  split at entry
  · rename_i array
    exact normalName_array array _
  · rename_i object
    exact normalName_object object _
  · cases entry

end Store

namespace World

/-- From one world to another, only cursors have been added. -/
structure Looks (before after : World) : Prop where
  store : after.store = before.store
  value : ∀ {d}, d < before.cursors.size → after.value d = before.value d
  follow : ∀ {path d}, before.follow? 0 path = some d → after.follow? 0 path = some d
  quiet : Quiet before after

theorem Looks.refl (world : World) : Looks world world :=
  ⟨rfl, fun _ => rfl, fun leads => leads, Quiet.refl world⟩

theorem Looks.trans {first second third : World} (left : Looks first second)
    (right : Looks second third) : Looks first third where
  store := right.store.trans left.store
  value inside :=
    (right.value (Nat.lt_of_lt_of_le inside left.quiet.size)).trans (left.value inside)
  follow leads := right.follow (left.follow leads)
  quiet := left.quiet.trans right.quiet

/-- Where more is kept, paths lead where they led. -/
theorem follow?_mono {world other : World}
    (more : ∀ {c name d}, world.kept? c name = some d → other.kept? c name = some d)
    {c d : CursorId} {path : List SlotName} (leads : world.follow? c path = some d) :
    other.follow? c path = some d := by
  induction path generalizing c with
  | nil => exact leads
  | cons name rest ih =>
    obtain ⟨next, kept, onward⟩ := Option.bind_eq_some_iff.mp leads
    exact Option.bind_eq_some_iff.mpr ⟨next, more kept, ih onward⟩

namespace Orderly

variable {world : World} (orderly : Orderly world) {path : List SlotName} {c : CursorId}
  (leads : world.follow? 0 path = some c)

include orderly

theorem tree_of_looks {after : World} (looks : Looks world after) : after.tree = world.tree := by
  rw [tree, tree, looks.store, looks.value orderly.coherent.present]

include leads

/-- Asking for a slot by the name that it goes by. -/
theorem child {name : SlotName} (normal : world.store.normalName (world.value c) name = name)
    (inRange : ∀ {items position}, world.store.contents? (world.value c) = some (.array items) →
      name = .index position → position < items.length) :
    Orderly (world.child c name).2 ∧ Looks world (world.child c name).2 ∧
      (world.child c name).2.follow? 0 (path ++ [name]) = some (world.child c name).1 ∧
      (world.store.slot (world.value c) name).same
        ((world.child c name).2.value (world.child c name).1) = true := by
  have coherent := orderly.coherent
  have proper := coherent.slot_proper leads name
  obtain ⟨coherentAfter, toChild⟩ := coherent.child leads inRange
  obtain ⟨effect, kept⟩ := child_effect coherent.sound (coherent.agrees leads)
    (orderly.inside leads) proper inRange
  rw [normal] at toChild kept
  have quiet := quiet_child world c name
  have sameRoot := effect.value coherent.present id
  have looks : Looks world (world.child c name).2 := by
    refine ⟨store_child world c name, fun inside => effect.value inside id, ?_, quiet⟩
    refine follow?_mono fun {d other e} keptThere => ?_
    by_cases here : d = c
    · subst here
      exact effect.survives keptThere rfl
    · rw [effect.kept here id]
      exact keptThere
  refine ⟨⟨coherentAfter, quiet.isHeld coherent.sound orderly.held, ?_, ?_⟩, looks, toChild, ?_⟩
  · rw [looks.store]
    exact orderly.fits
  · rw [looks.store, sameRoot]
    exact orderly.whole
  · have agrees := (effect.entries kept).2.same
    rw [looks.store, looks.value (orderly.inside leads)] at agrees
    exact agrees

/-- Stepping along a path of the tree to a composite. -/
theorem descend {rest : List SlotName} {id : CompositeId}
    (there : world.store.part? (world.value c) rest = some (.composite id)) :
    Orderly (world.descend c rest).2 ∧ Looks world (world.descend c rest).2 ∧
      (world.descend c rest).2.follow? 0 (path ++ rest) = some (world.descend c rest).1 ∧
      (world.descend c rest).2.value (world.descend c rest).1 = .composite id := by
  induction rest generalizing world c path with
  | nil =>
    rw [List.append_nil]
    exact ⟨orderly, Looks.refl world, leads, Option.some.inj there⟩
  | cons name rest ih =>
    obtain ⟨next, entry, onward⟩ := Option.bind_eq_some_iff.mp there
    obtain ⟨orderlyNext, looks, toNext, same⟩ := orderly.child leads
      (Store.normalName_of_inner? entry) (by
        rintro items position array rfl
        rw [Store.inner?_array array] at entry
        exact (List.getElem?_eq_some_iff.mp entry).1)
    rw [Store.slot_of_inner? entry] at same
    -- The way goes on from a composite, or ends at one.
    obtain ⟨nextId, rfl⟩ : ∃ nextId, next = .composite nextId :=
      by_contra fun plain => Store.part?_ne_composite (not_exists.mp plain) id onward
    have here := Value.same_composite_left.mp same
    obtain ⟨orderlyEnd, looksOn, toEnd, atEnd⟩ := ih orderlyNext toNext (by
      rw [here, looks.store]
      exact onward)
    rw [List.append_assoc, List.singleton_append] at toEnd
    exact ⟨orderlyEnd, looks.trans looksOn, toEnd, atEnd⟩

end Orderly

end World

end CodeTree
