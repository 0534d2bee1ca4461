/-
Gathering the cursors of a value's slots. Before the children of an object are visited, each of its
declared fields is asked for in turn, and a field that is missing is filled in first if it has a
default. This writes to the object while its cursors are there, and a cursor that stood for the
missing field is replaced. But no composite stood below that field, so that every cursor at a
composite is found where it was, and the world stays in good order.
-/

import CodeTree.Proofs.Completing

namespace CodeTree

variable {after before world written : World} {store : Store} {value : Value} {c d : CursorId}
  {members : Assoc String Value} {path place : List SlotName} {type : NodeType} {name : SlotName}

namespace World

/-! ### Tours -/

/-- From one world to another, cursors have been added, and a cursor at a composite is found where
it was. -/
structure Wanders (before after : World) : Prop where
  size : before.cursors.size ≤ after.cursors.size
  origin : ∀ {d}, d < before.cursors.size → after.origin d = before.origin d
  views : ∀ d, (after.cursor d).views = (before.cursor d).views ∨ (after.cursor d).views = .empty
  value : ∀ {d}, d < before.cursors.size → after.value d = before.value d
  follow : ∀ {path d id}, d < before.cursors.size → before.follow? 0 path = some d →
    before.value d = .composite id → after.follow? 0 path = some d

theorem Wanders.trans {first second third : World} (left : Wanders first second)
    (right : Wanders second third) : Wanders first third where
  size := Nat.le_trans left.size right.size
  origin inside := (right.origin (Nat.lt_of_lt_of_le inside left.size)).trans (left.origin inside)
  views d := by
    rcases right.views d with same | empty
    · rw [same]
      exact left.views d
    · exact .inr empty
  value inside := (right.value (Nat.lt_of_lt_of_le inside left.size)).trans (left.value inside)
  follow inside leads here := right.follow (Nat.lt_of_lt_of_le inside left.size)
    (left.follow inside leads here) ((left.value inside).trans here)

theorem wanders_withStore (world : World) (store : Store) : Wanders world { world with store } where
  size := Nat.le_refl _
  origin _ := rfl
  views _ := .inl rfl
  value _ := rfl
  follow _ leads _ := (follow?_withStore world store 0 _).trans leads

/-- From one world to another, cursors have been added and defaults have been filled in. -/
structure Tours (before after : World) : Prop extends Wanders before after where
  filled : before.store.Filled after.store

theorem Tours.refl (world : World) : Tours world world :=
  ⟨wanders_withStore world world.store, .refl _⟩

theorem Tours.trans {first second third : World} (left : Tours first second)
    (right : Tours second third) : Tours first third :=
  ⟨left.toWanders.trans right.toWanders, left.filled.trans right.filled⟩

theorem Looks.tours (looks : Looks before after) : Tours before after where
  size := looks.quiet.size
  origin := looks.quiet.origin
  views := looks.quiet.views
  value := looks.value
  follow _ leads _ := looks.follow leads
  filled := by
    rw [looks.store]
    exact Store.Filled.refl _

theorem Tours.viewless (tours : Tours before after) (viewless : Viewless before) :
    Viewless after := by
  intro c
  rcases tours.views c with same | empty
  · rw [same]
    exact viewless c
  · exact empty

theorem Tours.stands (tours : Tours before after) (stands : before.Stands path d) :
    after.Stands path d where
  inside := Nat.lt_of_lt_of_le stands.inside tours.size
  leads here := by
    rw [tours.value stands.inside] at here
    exact tours.follow stands.inside (stands.leads here) here

/-- A cursor has been asked for, and it stands at the end of a path. -/
structure Gathered (world : World) (path : List SlotName) (result : CursorId × World) : Prop where
  orderly : Orderly result.2
  tours : Tours world result.2
  stands : result.2.Stands path result.1

/-! ### Filling in a field -/

/-- What asking for a slot changes, also where the children of the cursor disagree with the slots. -/
theorem child_changes (world : World) (inside : c < world.cursors.size)
    (normal : world.store.normalName (world.value c) name = name) :
    (∀ d other, (world.child c name).2.kept? d other =
      if d = c ∧ other = name then some (world.child c name).1 else world.kept? d other) ∧
    (∀ {d}, d < world.cursors.size → (world.child c name).2.value d = world.value d ∧
      (world.child c name).2.above? d = world.above? d) ∧
    (world.cursors.size ≤ (world.child c name).1 ∨
      world.kept? c name = some (world.child c name).1) := by
  have cases := world.child_cases c name
  rw [normal] at cases
  rcases cases with ⟨kept, keptThere, _, result⟩ | ⟨_, result⟩ <;> rw [result]
  · refine ⟨fun d other => ?_, fun _ => ⟨rfl, rfl⟩, .inr keptThere⟩
    split
    · rename_i here
      rw [here.1, here.2]
      exact keptThere
    · rfl
  · refine ⟨kept?_addChild _ _ _ inside, fun old => ⟨?_, ?_⟩, .inl (Nat.le_refl _)⟩
    · rw [value_addChild, if_neg (Nat.ne_of_lt old)]
    · rw [above?_addChild, if_neg (Nat.ne_of_lt old)]

/-- Writing a member and asking for it is an edit of the object. -/
theorem fill_effect (sound : Sound world) (inside : c < world.cursors.size)
    (agrees : ∀ {name d}, world.kept? c name = some d → Agrees world c name d)
    (object : world.store.contents? (world.value c) = some (.object members)) (key : String)
    (proper : value.isNaN = false)
    (writes : written = { world with store := world.store.setMember (world.value c) key value }) :
    Effect c nobody nobody (SlotName.without (.key key) some)
        (some (.object (members.insert key value))) world (written.child c (.key key)).2 ∧
      (written.child c (.key key)).2.kept? c (.key key) = some (written.child c (.key key)).1 := by
  have here : written.value c = world.value c := by rw [writes]; rfl
  have size : written.cursors.size = world.cursors.size := by rw [writes]
  have stored : written.store.contents? (world.value c) =
      some (.object (members.insert key value)) := by
    rw [writes]
    exact Store.contents?_modifyMembers_self object _
  have others {other : Value} (different : other ≠ world.value c) :
      written.store.contents? other = world.store.contents? other := by
    rw [writes]
    exact Store.contents?_modifyMembers_other _ different _
  have normal : written.store.normalName (written.value c) (.key key) = .key key := by
    rw [here, Store.normalName_object stored, SlotName.text]
  have slot : written.store.slot (written.value c) (.key key) = value := by
    rw [here, Store.slot_object stored, SlotName.text, Assoc.get?_insert, if_pos rfl]
    rfl
  have soundWritten : Sound written := writes ▸ sound.withStore _
  obtain ⟨kept, stays, came⟩ := written.child_changes (size ▸ inside) normal
  have asked := (child_spec (size ▸ inside) (.key key)).2
  rw [normal, slot, Value.same_comm] at asked
  have keptBefore (d : CursorId) (name : SlotName) :
      written.kept? d name = world.kept? d name := by rw [writes]; rfl
  have store := store_child written c (.key key)
  refine ⟨?_, by rw [kept, if_pos ⟨rfl, rfl⟩]⟩
  constructor
  case sound => exact soundWritten.child (size ▸ inside) _
  case size => exact size ▸ (quiet_child written c _).size
  case above =>
    intro d old
    rw [(stays (size ▸ old)).2, writes]
    rfl
  case written =>
    rw [store]
    exact stored
  case contents =>
    intro other different
    rw [store]
    exact others different
  case value =>
    intro d old _
    rw [(stays (size ▸ old)).1, writes]
    rfl
  case below => exact False.elim
  case still => exact False.elim
  case kept =>
    intro d different _ name
    rw [kept, if_neg fun both => different both.1, keptBefore]
  case empty => exact False.elim
  case survives =>
    intro name target d keptThere goes
    rw [SlotName.without] at goes
    split at goes
    · cases goes
    · rename_i different
      cases goes
      rw [kept, if_neg fun both => different both.2, keptBefore]
      exact keptThere
  case entries =>
    intro target d keptThere
    rw [kept] at keptThere
    have objectAfter : (written.child c (.key key)).2.store.contents?
        ((written.child c (.key key)).2.value c) = some (.object (members.insert key value)) := by
      rw [store, (stays (size ▸ inside)).1, here]
      exact stored
    split at keptThere
    · rename_i both
      cases keptThere
      rw [both.2]
      refine ⟨came.imp (size ▸ ·) fun keptThere => ⟨_, (keptBefore _ _).symm.trans keptThere⟩,
        agrees_object objectAfter rfl ?_⟩
      rw [SlotName.text, Assoc.get?_insert_self]
      exact asked proper
    · rename_i apart
      rw [keptBefore] at keptThere
      have old := (sound.kept keptThere).2.2
      have named := (agrees keptThere).normal
      rw [Store.normalName_object object] at named
      have different : target.text ≠ key := fun same => apart ⟨rfl, by rw [← named, same]⟩
      refine ⟨.inr ⟨target, keptThere⟩, agrees_member object agrees keptThere objectAfter ?_ ?_⟩
      · rw [(stays (size ▸ old)).1, writes]
        rfl
      · rw [Assoc.get?_insert, if_neg different]

namespace Orderly

variable (orderly : Orderly world) (leads : world.follow? 0 place = some c)

include orderly leads

/-- Asking for a slot by the name that it goes by. -/
theorem gathered_child (normal : world.store.normalName (world.value c) name = name)
    (inRange : ∀ {items position}, world.store.contents? (world.value c) = some (.array items) →
      name = .index position → position < items.length) :
    Gathered world (place ++ [name]) (world.child c name) := by
  obtain ⟨orderlyAfter, looks, toChild, _⟩ := orderly.child leads normal inRange
  exact ⟨orderlyAfter, looks.tours, orderlyAfter.inside toChild, fun _ => toChild⟩

variable (object : world.store.contents? (world.value c) = some (.object members)) {key : String}
  (absent : members.get? key = none)

include object absent

/-- Writing a member that was missing, and asking for it. -/
theorem gathered_written (bare : world.store.Bare value) (proper : value.isNaN = false)
    (outside : ∀ id path, value = .composite id →
      world.store.part? (world.value 0) path ≠ some (.composite id))
    (writes : written = { world with store := world.store.setMember (world.value c) key value }) :
    Orderly (written.child c (.key key)).2 ∧ Wanders world (written.child c (.key key)).2 ∧
      (written.child c (.key key)).2.Stands (place ++ [.key key])
        (written.child c (.key key)).1 := by
  have coherent := orderly.coherent
  have inside := orderly.inside leads
  obtain ⟨effect, kept⟩ :=
    fill_effect coherent.sound inside (coherent.agrees leads) object key proper writes
  have quiet : Quiet world (written.child c (.key key)).2 :=
    Quiet.trans (writes ▸ quiet_withStore world _) (quiet_child written c _)
  have start : Reworked c members world world := Reworked.refl orderly leads object
  have reworked : Reworked c (members.insert key value) world (written.child c (.key key)).2 := by
    refine ⟨⟨_, _, _, effect⟩, quiet, fun {other part} member => ?_⟩
    rw [Assoc.get?_insert] at member
    split at member
    · cases member
      exact proper
    · exact start.proper member
  obtain ⟨own, here⟩ := Store.exists_id_of_contents? object
  have there := coherent.part_of_follow leads here
  rw [here] at object
  have stood {other : String} {part : Value} (member : members.get? other = some part) :
      world.store.inner? (.composite own) (.key other) = some part :=
    (Store.inner?_object object other).trans member
  have intact := bare.intact proper
  have finished := reworked.orderly_after orderly leads here [value]
    (List.forall_mem_singleton.mpr intact.free) (List.forall_mem_singleton.mpr intact.whole)
    (fun other => other) key
    (by
      intro other part member
      rw [Assoc.get?_insert] at member
      split at member
      · cases member
        exact .inl List.mem_cons_self
      · exact .inr (stood member))
    (by
      intro other part member
      rw [Assoc.get?_insert] at member
      split at member
      · cases member
        exact intact.unshared
      · exact Store.Unshared.next (Store.Unshared.part coherent.unshared there) (stood member))
    (by
      intro other part path inner member reached
      rw [Assoc.get?_insert] at member
      split at member
      · rename_i same
        cases member
        obtain ⟨_, composite⟩ := bare.part? reached
        exact .inr ⟨same, fun path => outside inner path composite.symm⟩
      · refine .inl ⟨path, ?_⟩
        rw [Store.part?_append, there, Option.bind_some, Store.part?_cons (stood member),
          reached])
    (fun _ _ same => same)
  have toChild : (written.child c (.key key)).2.follow? 0 (place ++ [.key key]) =
      some (written.child c (.key key)).1 :=
    follow?_concat.mpr ⟨c, reworked.follow orderly leads, kept⟩
  refine ⟨finished.1, ⟨quiet.size, quiet.origin, quiet.views, fun old => effect.value old id, ?_⟩,
    finished.1.inside toChild, fun _ => toChild⟩
  intro path d inner _ leadsThere hereToo
  refine effect.follow_moved coherent.sound leads leadsThere ?_ fun _ _ => False.elim
  by_cases through : ∃ name rest, path = place ++ name :: rest
  · obtain ⟨name, rest, rfl⟩ := through
    -- No composite stands below the slot that is filled in.
    have different : name ≠ .key key := by
      rintro rfl
      have reached := coherent.part_of_follow leadsThere hereToo
      rw [Store.part?_append, there, Option.bind_some, Store.part?, Store.inner?_object object,
        absent] at reached
      cases reached
    rw [SlotName.movePath_append, SlotName.without, if_neg different]
    rfl
  · exact SlotName.movePath_of_away fun name rest equal => through ⟨name, rest, equal⟩

omit absent in
/-- Asking for a field, after its default has been filled in if it is missing and has one. -/
theorem gathered_field (key : String) :
    Gathered world (place ++ [.key key])
      ((world.fillField (world.value c) key).child c (.key key)) := by
  have unfilled := orderly.gathered_child leads (Store.normalName_object object (.key key)) (by
    intro items position array
    rw [object] at array
    cases array)
  obtain ⟨orderlyAfter, wanders, stands⟩ :
      Orderly ((world.fillField (world.value c) key).child c (.key key)).2 ∧
      Wanders world ((world.fillField (world.value c) key).child c (.key key)).2 ∧
      ((world.fillField (world.value c) key).child c (.key key)).2.Stands (place ++ [.key key])
        ((world.fillField (world.value c) key).child c (.key key)).1 := by
    rw [fillField]
    split
    · exact ⟨unfilled.orderly, unfilled.tours.toWanders, unfilled.stands⟩
    · rename_i lacks
      split
      · exact ⟨unfilled.orderly, unfilled.tours.toWanders, unfilled.stands⟩
      · rename_i default found
        have absent : members.get? key = none := by
          rw [Store.hasMember, Store.members?, object] at lacks
          simpa [Assoc.contains] using lacks
        rcases default.toValue_cases world.store with ⟨value, built, plain, proper⟩ | built
        · rw [built]
          exact orderly.gathered_written leads object absent (.inl plain) proper
            (fun id _ same => absurd same (plain id)) rfl
        · rw [built]
          obtain ⟨id, here⟩ := Store.exists_id_of_contents? object
          have there := orderly.coherent.part_of_follow leads here
          have grown := orderly.grown (.array []) (by
            rintro items ⟨⟩
            decide)
          have objectStill : (world.grown (.array [])).store.contents?
              ((world.grown (.array [])).value c) = some (.object members) := by
            rw [here] at object
            rw [show (world.grown (.array [])).value c = .composite id from here, ← object]
            exact orderly.whole.contents?_grown _ there
          obtain ⟨orderlyAfter, wanders, stands⟩ := grown.gathered_written
            ((follow?_grown world (.array []) 0 place).trans leads) objectStill absent
            (.inr (Store.contents?_grown_self _ _)) rfl
            (by
              intro inner path same reached
              rw [orderly.part?_grown, ← same] at reached
              exact orderly.whole.ne_size reached rfl)
            rfl
          exact ⟨orderlyAfter, (wanders_withStore world _).trans wanders, stands⟩
  refine ⟨orderlyAfter, ⟨wanders, ?_⟩, stands⟩
  rw [store_child]
  exact world.filled_fillField _ key

end Orderly

end World

end CodeTree
