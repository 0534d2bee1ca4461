/-
Where a walk goes. The fields that a visitor walks through are those that its policy names, and the
positions of a walk are the places that elements, keys of plain records and declared fields lead to.
-/

import CodeTree.Proofs.Completing
import CodeTree.Proofs.Positions
import CodeTree.Proofs.Visiting

namespace CodeTree

open World

variable {H σ : Type}

variable {store : Store} {part value : Value} {items : List Value} {policy : Policy H}
  {session : Session H σ} {name : SlotName} {v : VisitorId}

namespace Stroll

variable {members : Assoc String Value}

/-! ### The fields that a walk goes through -/

theorem visitsComments_eq_walksComments {visitor : Visitor H}
    (handlers : visitor.handlers = policy.handlers) :
    visitor.visitsComments = policy.walksComments := by
  rw [Visitor.visitsComments, Policy.walksComments, Visitor.resolve?, Visitor.resolve?, handlers]
  rfl

/-- The fields that a visitor walks through are those that its policy names. -/
theorem walkedFields_eq (handlers : (session.visitor v).handlers = policy.handlers)
    (unshared : session.world.store.Unshared value)
    (object : session.world.store.contents? value = some (.object members)) :
    (∃ unknown, session.walkedFields v value = .error unknown ∧
      (session.world.store.tree value).isUnknown = true) ∨
    session.walkedFields v value = .ok (policy.walkedKeys (session.world.store.tree value)) ∧
      (session.world.store.tree value).isUnknown = false := by
  rw [Session.walkedFields, visitsComments_eq_walksComments handlers, Tree.isUnknown,
    Policy.walkedKeys, Tree.isUnknown, Store.type?_tree unshared, Store.inner?_tree unshared,
    Store.member_tree unshared, Store.isNull_tree, Option.isSome_map]
  rcases Store.fieldNames_cases object with
    ⟨own, typed, declared⟩ | ⟨untyped, ⟨other, unknown, entry, refused⟩ | ⟨entry, declared⟩⟩
  · rw [typed, declared, Option.isNone_some, Bool.and_false]
    refine .inr ⟨?_, rfl⟩
    dsimp only
    split <;> rfl
  · rw [untyped, entry, refused]
    exact .inl ⟨unknown, rfl, rfl⟩
  · rw [untyped, entry, declared]
    refine .inr ⟨?_, rfl⟩
    have keys : (session.world.store.tree value).keys = members.keys := by
      obtain ⟨id, rfl⟩ := Store.exists_id_of_contents? object
      rw [Store.tree_of_some unshared object, Composite.tree, Tree.keys, List.map_map]
      rfl
    -- The comments of a record are among its keys.
    have listed : (!(session.world.store.member value "comments").isNull &&
        !members.keys.contains "comments") = false := by
      rw [Store.member_eq_inner?, Store.inner?_object object]
      cases member : members.get? "comments" with
      | none => rfl
      | some part =>
        have among : "comments" ∈ members.keys :=
          List.mem_map.mpr ⟨_, Assoc.mem_entries.mpr member, rfl⟩
        rw [List.contains_iff_mem.mpr among, Bool.not_true, Bool.and_false]
    dsimp only
    rw [Bool.and_assoc, listed, Bool.and_false, if_neg Bool.false_ne_true, keys]
    rfl

section Keys

variable (policy) (unshared : store.Unshared value)

include unshared

/-- The fields that a walk goes through are all that can be missing. -/
theorem missing_walkedKeys :
    store.missing value (policy.walkedKeys (store.tree value)) = store.lacking value := by
  have comments : store.missing value ["comments"] = [] := by
    refine List.filterMap_eq_nil_iff.mpr fun name named => ?_
    rw [List.mem_singleton.mp named, Store.fieldDefault?_plain (by decide)]
    split <;> rfl
  rw [Policy.walkedKeys, Store.lacking, Store.type?_tree unshared]
  cases typed : store.type? value with
  | none => exact Store.missing_of_untyped typed _
  | some own =>
    dsimp only
    split
    · rw [Store.missing_append, comments, List.append_nil]
      rfl
    · rfl

theorem slots_of_array (array : store.contents? value = some (.array items)) :
    policy.slots (store.tree value) = (List.range items.length).map .index := by
  obtain ⟨id, rfl⟩ := Store.exists_id_of_contents? array
  rw [Store.tree_of_some unshared array, Composite.tree, Policy.slots, List.length_map]

theorem slots_of_object (object : store.contents? value = some (.object members)) :
    policy.slots (store.tree value) = (policy.walkedKeys (store.tree value)).map .key := by
  obtain ⟨id, rfl⟩ := Store.exists_id_of_contents? object
  rw [Store.tree_of_some unshared object, Composite.tree, Policy.slots]

end Keys

/-! ### Where a walk goes -/

section Reached

/-- A walk goes through elements, keys of plain records and declared fields, and through comments if
it is after some and they are not null. -/
theorem mem_slots_iff (unshared : store.Unshared value)
    (entry : store.inner? value name = some part)
    (listed : policy.walksComments = false ∨ part.isNull = false) :
    name ∈ policy.slots (store.tree value) ↔
      store.terrain.walks policy.walksComments value name = true := by
  cases present : store.contents? value with
  | none => simp [Store.inner?, present] at entry
  | some contents =>
    have found := entry
    rw [Store.inner?_of_contents present] at found
    cases contents with
    | array items =>
      rw [slots_of_array policy unshared present]
      cases name with
      | key key => cases found
      | index position =>
        have inside := (List.getElem?_eq_some_iff.mp found).1
        simpa [Terrain.walks] using inside
    | object members =>
      rw [slots_of_object policy unshared present]
      cases name with
      | index position => cases found
      | key key =>
        have keyed : key ∈ (store.tree value).keys := by
          obtain ⟨id, rfl⟩ := Store.exists_id_of_contents? present
          rw [Store.tree_of_some unshared present, Composite.tree, Tree.keys, List.map_map]
          exact List.mem_map.mpr ⟨_, Assoc.mem_entries.mpr found, rfl⟩
        rw [List.mem_map_of_injective fun _ _ => SlotName.key.inj, Policy.walkedKeys,
          Terrain.walks, Store.type?_tree unshared, Store.type?_terrain, Tree.isUnknown,
          Store.type?_tree unshared, Store.inner?_tree unshared, Store.member_tree unshared,
          Store.isNull_tree, Store.member_eq_inner?]
        cases store.type? value with
        | some own =>
          dsimp only
          by_cases comments : key = "comments"
          · subst comments
            rw [entry, Option.getD_some]
            rcases listed with quiet | some
            · simp [quiet]
            · rw [some]
              cases policy.walksComments <;>
                cases inside : own.fieldNames.contains "comments" <;> simp_all
          · split <;> simp [comments]
        | none =>
          show _ ↔ (store.inner? value (.key "type")).isNone = true
          cases store.inner? value (.key "type") with
          | none => simpa using keyed
          | some other => simp

/-- Null has no slots, so that a null on the way is the part itself. -/
theorem notNull_of_reaches {comments : Bool} {next : Value} {rest : List SlotName}
    (listed : comments = false ∨ part.isNull = false)
    (reached : store.terrain.Reaches comments next rest part) :
    comments = false ∨ next.isNull = false := by
  refine listed.imp_right fun some => ?_
  cases reached with
  | here => exact some
  | step _ entry _ =>
    cases next with
    | null => cases entry
    | _ => rfl

section Positions

variable {front rest : List SlotName} (unshared : store.Unshared value)
  (listed : policy.walksComments = false ∨ part.isNull = false)

include unshared listed

/-- A walk reaches the positions that it comes to, null comments apart. -/
theorem reaches_of_mem_positions
    (member : ⟨front ++ rest, store.tree part⟩ ∈ policy.positions front (store.tree value)) :
    store.terrain.Reaches policy.walksComments value rest part := by
  induction rest generalizing front value with
  | nil =>
    rw [policy.positions_eq] at member
    rcases List.mem_cons.mp member with same | below
    · have tree := congrArg Tree.value (congrArg Position.tree same)
      rw [Store.value_tree, Store.value_tree] at tree
      exact tree ▸ .here part
    · split at below
      · obtain ⟨name, next, _, inside⟩ := policy.mem_below below
        obtain ⟨deeper, leads, _⟩ := policy.at?_of_mem_positions inside
        simp at leads
      · cases below
  | cons name rest ih =>
    rw [policy.positions_eq] at member
    rcases List.mem_cons.mp member with same | below
    · cases List.append_right_eq_self.mp (congrArg Position.path same)
    · split at below
      · obtain ⟨other, walked, inside⟩ := List.mem_flatMap.mp below
        rw [Policy.within, Store.inner?_tree unshared] at inside
        cases entry : store.inner? value other with
        | none =>
          rw [entry] at inside
          cases inside
        | some next =>
          rw [entry, Option.map_some, Option.map_some, Option.getD_some] at inside
          obtain ⟨deeper, leads, _⟩ := policy.at?_of_mem_positions inside
          rw [List.append_assoc, List.append_right_inj, List.singleton_append] at leads
          cases leads
          have reached := @ih next (front ++ [name]) (unshared.next entry)
            (by rw [List.append_assoc]; exact inside)
          exact .step ((mem_slots_iff unshared entry (notNull_of_reaches listed reached)).mp walked)
            entry reached
      · cases below

/-- A walk that goes on from every position comes to what it reaches, null comments apart. -/
theorem mem_positions_of_reaches (enters : ∀ position ∈ policy.positions front (store.tree value),
      policy.enters position.tree = true)
    (reached : store.terrain.Reaches policy.walksComments value rest part) :
    ⟨front ++ rest, store.tree part⟩ ∈ policy.positions front (store.tree value) := by
  induction rest generalizing front value with
  | nil =>
    cases reached
    rw [policy.positions_eq, List.append_nil]
    exact List.mem_cons_self
  | cons name rest ih =>
    cases reached with
    | @step _ next _ _ _ walked entry reached =>
      have entry : store.inner? value name = some next := entry
      have slot := (mem_slots_iff unshared entry (notNull_of_reaches listed reached)).mpr walked
      have goesOn := enters ⟨front, store.tree value⟩ (by
        rw [policy.positions_eq]
        exact List.mem_cons_self)
      rw [policy.positions_eq, if_pos goesOn] at enters ⊢
      have onward {position : Position}
          (inside : position ∈ policy.positions (front ++ [name]) (store.tree next)) :
          position ∈ policy.below front (store.tree value) := by
        refine List.mem_flatMap.mpr ⟨name, slot, ?_⟩
        rw [Policy.within, Store.inner?_tree unshared, entry]
        exact inside
      have member := @ih next (front ++ [name]) (unshared.next entry)
        (fun position inside => enters position (List.mem_cons_of_mem _ (onward inside))) reached
      rw [List.append_assoc] at member
      exact List.mem_cons_of_mem _ (onward member)

end Positions

/-- If no handler keeps a walk from going on, its positions are the places that it reaches, null
comments apart. -/
theorem mem_positions_iff (walks : ∀ handler tree, policy.descends handler tree = true)
    (unshared : store.Unshared value)
    (listed : policy.walksComments = false ∨ part.isNull = false) (front rest : List SlotName) :
    ⟨front ++ rest, store.tree part⟩ ∈ policy.positions front (store.tree value) ↔
      store.terrain.Reaches policy.walksComments value rest part := by
  refine ⟨reaches_of_mem_positions unshared listed, mem_positions_of_reaches unshared listed ?_⟩
  intro position _
  rw [Policy.enters, Option.all_eq_true]
  exact fun found _ => walks found.2 position.tree

theorem exists_of_mem_positions {position : Position} {front : List SlotName}
    (unshared : store.Unshared value)
    (member : position ∈ policy.positions front (store.tree value)) :
    ∃ rest part, position = ⟨front ++ rest, store.tree part⟩ ∧
      store.part? value rest = some part ∧ (part.isNull = false →
        store.terrain.Reaches policy.walksComments value rest part) := by
  obtain ⟨path, tree⟩ := position
  obtain ⟨rest, rfl, shows⟩ := policy.at?_of_mem_positions member
  rw [Store.at?_tree unshared] at shows
  obtain ⟨part, there, rfl⟩ := Option.map_eq_some_iff.mp shows
  exact ⟨rest, part, rfl, there, fun notNull =>
    reaches_of_mem_positions unshared (.inr notNull) member⟩

end Reached

end Stroll

end CodeTree
