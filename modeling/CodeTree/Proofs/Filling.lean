/-
Filling in defaults. A store is filled when objects in it have come to have further members and
nothing else has changed. What comes in holds nothing itself: it is a primitive or an empty array,
it never stands under `type`, and under `alternate` it is null. So a filled value has the types that
it had, a walk comes to the same places and otherwise only to bare ones, and no count of a tree
changes.
-/

import CodeTree.Proofs.Loading

namespace CodeTree

variable {after before : Store} {part value : Value} {comments : Bool} {name : SlotName}

namespace Store

variable {path : List SlotName} {store : Store}

/-- A value that holds nothing: a primitive or an empty array. -/
def Bare (store : Store) (value : Value) : Prop :=
  (∀ id, value ≠ .composite id) ∨ store.contents? value = some (.array [])

theorem bare_null (store : Store) : store.Bare .null := .inl fun _ same => by cases same

/-- From one store to another, objects have come to have further members that hold nothing. -/
structure Filled (before after : Store) : Prop where
  array : ∀ value items, before.contents? value = some (.array items) →
    after.contents? value = some (.array items)
  object : ∀ value members, before.contents? value = some (.object members) →
    ∃ more added, after.contents? value = some (.object more) ∧
      more.entries = members.entries ++ added ∧
      ∀ entry ∈ added, entry.1 ≠ "type" ∧ after.Bare entry.2 ∧
        (entry.1 = "alternate" → entry.2 = .null)

section Bare

variable (bare : store.Bare value)

include bare

theorem Bare.not_object {members : Assoc String Value} :
    store.contents? value ≠ some (.object members) := by
  intro object
  rcases bare with plain | empty
  · cases object.symm.trans (contents?_of_plain plain)
  · cases object.symm.trans empty

theorem Bare.inner? (name : SlotName) : store.inner? value name = none := by
  rcases bare with plain | empty
  · simp [Store.inner?, contents?_of_plain plain]
  · rw [inner?_of_contents empty]
    cases name <;> rfl

theorem Bare.type? : store.type? value = none := by
  rw [← type?_terrain, Terrain.type?, show store.terrain.inner? value (.key "type") = none from
    bare.inner? _]
  rfl

theorem Bare.isOf (type : NodeType) : store.isOf type value = false := by
  rw [Store.isOf, bare.type?]
  rfl

theorem Bare.part? (there : store.part? value path = some part) : path = [] ∧ part = value := by
  cases path with
  | nil =>
    cases there
    exact ⟨rfl, rfl⟩
  | cons name rest =>
    rw [Store.part?, bare.inner?] at there
    cases there

theorem Bare.unshared : store.Unshared value := by
  intro path other id first second
  rw [(bare.part? first).1, (bare.part? second).1]

theorem Bare.whole : store.Whole value := by
  intro path id there
  cases (bare.part? there).2
  rcases bare with plain | empty
  · exact absurd rfl (plain id)
  · rw [empty]
    exact Option.some_ne_none _

/-- A tree can be made of what holds nothing. -/
theorem Bare.intact (proper : value.isNaN = false) : store.Intact value := by
  refine ⟨bare.unshared, ?_, bare.whole⟩
  intro path part there
  rw [(bare.part? there).2]
  exact proper

/-- What holds nothing does not count. -/
theorem Bare.count {test : Tree → Bool} (glances : Tree.Glances test) :
    (store.tree value).count test = 0 := by
  rcases bare with plain | empty
  · rw [tree_of_none (contents?_of_plain plain), Tree.count, glances.leaf]
    rfl
  · obtain ⟨id, rfl⟩ := exists_id_of_contents? empty
    have verdict : test (.array id []) = test (.leaf .null) :=
      glances.shallow _ _ fun _ => rfl
    have flat : store.Unshared (.composite id) := unshared_of_flat empty (List.forall_mem_nil _)
    rw [tree_of_some flat empty]
    show (test (.array id [])).toNat + 0 = 0
    rw [verdict, glances.leaf]
    rfl

end Bare

theorem part?_of_reaches {comments : Bool} (reached : store.terrain.Reaches comments value path part) :
    store.part? value path = some part := by
  induction reached with
  | here => rfl
  | step _ entry _ ih => exact (part?_cons entry _).trans ih

namespace Filled

theorem refl (store : Store) : store.Filled store where
  array _ _ present := present
  object _ members present := ⟨members, [], present, (List.append_nil _).symm, nofun⟩

theorem bare (filled : before.Filled after) (bare : before.Bare value) : after.Bare value := by
  rcases bare with plain | empty
  · exact .inl plain
  · exact .inr (filled.array value [] empty)

theorem trans {first second third : Store} (left : first.Filled second)
    (right : second.Filled third) : first.Filled third where
  array value items present := right.array value items (left.array value items present)
  object value members present := by
    obtain ⟨more, added, presentMore, entries, adds⟩ := left.object value members present
    obtain ⟨most, further, presentMost, entriesMost, addsFurther⟩ :=
      right.object value more presentMore
    refine ⟨most, added ++ further, presentMost, ?_, ?_⟩
    · rw [entriesMost, entries, List.append_assoc]
    · intro entry member
      rcases List.mem_append.mp member with early | late
      · obtain ⟨untyped, bare, null⟩ := adds entry early
        exact ⟨untyped, right.bare bare, null⟩
      · exact addsFurther entry late

variable (filled : before.Filled after)

include filled

theorem contents?_ne_none (known : before.contents? value ≠ none) :
    after.contents? value ≠ none := by
  obtain ⟨contents, present⟩ := Option.ne_none_iff_exists'.mp known
  cases contents with
  | array items =>
    rw [filled.array value items present]
    exact Option.some_ne_none _
  | object members =>
    obtain ⟨more, _, presentMore, _⟩ := filled.object value members present
    rw [presentMore]
    exact Option.some_ne_none _

/-- What stood in a slot stands there still. -/
theorem inner?_of_before (entry : before.inner? value name = some part) :
    after.inner? value name = some part := by
  cases present : before.contents? value with
  | none => simp [Store.inner?, present] at entry
  | some contents =>
    rw [inner?_of_contents present] at entry
    cases contents with
    | array items =>
      rw [inner?_of_contents (filled.array value items present)]
      exact entry
    | object members =>
      obtain ⟨more, added, presentMore, entries, _⟩ := filled.object value members present
      rw [inner?_of_contents presentMore]
      cases name with
      | index position => cases entry
      | key key =>
        refine Assoc.mem_entries.mp ?_
        rw [entries]
        exact List.mem_append_left _ (Assoc.mem_entries.mpr entry)

/-- What stands in a slot of a value that was there has stood there, or has come and holds
nothing. -/
theorem inner?_of_after (known : ∀ id, value = .composite id → before.contents? value ≠ none)
    (entry : after.inner? value name = some part) :
    before.inner? value name = some part ∨
      after.Bare part ∧ before.inner? value name = none ∧
        ∃ key members, name = .key key ∧ key ≠ "type" ∧ (key = "alternate" → part = .null) ∧
          before.contents? value = some (.object members) := by
  cases present : before.contents? value with
  | none =>
    cases value with
    | composite id => exact absurd present (known id rfl)
    | _ => cases entry
  | some contents =>
    cases contents with
    | array items =>
      rw [inner?_of_contents (filled.array value items present)] at entry
      exact .inl ((inner?_of_contents present name).trans entry)
    | object members =>
      obtain ⟨more, added, presentMore, entries, adds⟩ := filled.object value members present
      rw [inner?_of_contents presentMore] at entry
      cases name with
      | index position => cases entry
      | key key =>
        have member := Assoc.mem_entries.mpr entry
        rw [entries] at member
        rcases List.mem_append.mp member with old | new
        · exact .inl ((inner?_of_contents present _).trans (Assoc.mem_entries.mp old))
        · obtain ⟨untyped, bare, null⟩ := adds _ new
          refine .inr ⟨bare, ?_, key, members, rfl, untyped, null, rfl⟩
          refine Option.eq_none_iff_forall_ne_some.mpr fun stood found => ?_
          -- No key occurs twice among the members.
          have distinct := more.distinct
          rw [entries, List.map_append, List.nodup_append] at distinct
          rw [inner?_of_contents present] at found
          exact distinct.2.2 key (List.mem_map.mpr ⟨_, Assoc.mem_entries.mpr found, rfl⟩) key
            (List.mem_map.mpr ⟨_, new, rfl⟩) rfl

section Known

variable (known : ∀ id, value = .composite id → before.contents? value ≠ none)

include known

theorem inner?_type : after.inner? value (.key "type") = before.inner? value (.key "type") := by
  cases stood : before.inner? value (.key "type") with
  | some part => exact filled.inner?_of_before stood
  | none =>
    refine Option.eq_none_iff_forall_ne_some.mpr fun part entry => ?_
    rcases filled.inner?_of_after known entry with old | ⟨_, _, key, _, named, untyped, _⟩
    · rw [stood] at old
      cases old
    · exact untyped (SlotName.key.inj named).symm

theorem type?_terrain : after.terrain.type? value = before.terrain.type? value := by
  unfold Terrain.type?
  rw [show after.terrain.inner? value (.key "type") = before.terrain.inner? value (.key "type") from
    filled.inner?_type known]
  rfl

theorem type? : after.type? value = before.type? value := by
  rw [← Store.type?_terrain, filled.type?_terrain known, Store.type?_terrain]

theorem isOf (type : NodeType) : after.isOf type value = before.isOf type value := by
  rw [Store.isOf, Store.isOf, filled.type? known]

theorem walks (comments : Bool) (name : SlotName) :
    after.terrain.walks comments value name = before.terrain.walks comments value name := by
  cases name with
  | index position => rfl
  | key key =>
    rw [Terrain.walks, Terrain.walks, filled.type?_terrain known,
      show after.terrain.inner? value (.key "type") = before.terrain.inner? value (.key "type") from
        filled.inner?_type known]

end Known

/-! ### Walks over a filled store -/

omit filled in
theorem known_of_whole (whole : before.Whole value) :
    ∀ id, value = .composite id → before.contents? value ≠ none := by
  rintro id rfl
  exact whole [] id rfl

theorem part?_of_before (there : before.part? value path = some part) :
    after.part? value path = some part := by
  induction path generalizing value with
  | nil => exact there
  | cons name rest ih =>
    obtain ⟨next, entry, onward⟩ := Option.bind_eq_some_iff.mp there
    exact Option.bind_eq_some_iff.mpr ⟨next, filled.inner?_of_before entry, ih onward⟩

/-- A part of a filled value has been a part of it, or has come as a member of an object and holds
nothing. -/
theorem part?_of_after (whole : before.Whole value) (there : after.part? value path = some part) :
    before.part? value path = some part ∨
      after.Bare part ∧ ∃ front key holder members, path = front ++ [.key key] ∧
        before.part? value front = some holder ∧
        before.contents? holder = some (.object members) := by
  induction path generalizing value with
  | nil => exact .inl there
  | cons name rest ih =>
    obtain ⟨next, entry, onward⟩ := Option.bind_eq_some_iff.mp there
    rcases filled.inner?_of_after (known_of_whole whole) entry with
      old | ⟨bare, _, key, members, rfl, _, _, object⟩
    · have stands : before.part? value [name] = some next := (part?_cons old []).trans rfl
      rcases ih (whole.part stands) onward with
        stood | ⟨bare, front, key, holder, members, rfl, reached, object⟩
      · exact .inl ((part?_cons old rest).trans stood)
      · exact .inr ⟨bare, name :: front, key, holder, members, rfl,
          (part?_cons old front).trans reached, object⟩
    · cases rest with
      | nil =>
        cases onward
        exact .inr ⟨bare, [], key, value, members, rfl, rfl, object⟩
      | cons step beyond =>
        obtain ⟨_, further, _⟩ := Option.bind_eq_some_iff.mp onward
        rw [bare.inner?] at further
        cases further

theorem reaches_of_before (whole : before.Whole value)
    (reached : before.terrain.Reaches comments value path part) :
    after.terrain.Reaches comments value path part := by
  induction reached with
  | here => exact .here _
  | step walked entry _ ih =>
    have entry : before.inner? _ _ = some _ := entry
    have next : before.Whole _ := whole.part ((part?_cons entry []).trans rfl)
    refine .step ?_ (filled.inner?_of_before entry) (ih next)
    rw [filled.walks (known_of_whole whole)]
    exact walked

/-- A walk over a filled value comes to places that it came to before, and to bare ones. -/
theorem reaches_of_after (whole : before.Whole value)
    (reached : after.terrain.Reaches comments value path part) :
    before.terrain.Reaches comments value path part ∨ after.Bare part := by
  induction reached with
  | here => exact .inl (.here _)
  | step walked entry onward ih =>
    have entry : after.inner? _ _ = some _ := entry
    rcases filled.inner?_of_after (known_of_whole whole) entry with old | ⟨bare, _⟩
    · have next : before.Whole _ := whole.part ((part?_cons old []).trans rfl)
      rcases ih next with stood | bare
      · refine .inl (.step ?_ old stood)
        rw [← filled.walks (known_of_whole whole)]
        exact walked
      · exact .inr bare
    · cases onward with
      | here => exact .inr bare
      | step _ further _ =>
        have further : after.inner? _ _ = some _ := further
        rw [bare.inner?] at further
        cases further

/-- A filled value lacks the types that it lacked. -/
theorem lacks (whole : before.Whole value) (type : NodeType) :
    after.terrain.Lacks type value ↔ before.terrain.Lacks type value := by
  have parts {path : List SlotName} {part : Value}
      (reached : before.terrain.Reaches type.includesComments value path part) :
      before.Whole part := whole.part (part?_of_reaches reached)
  constructor
  · intro lacks path part reached below
    have verdict := lacks path part (filled.reaches_of_before whole reached) below
    rw [isOf_terrain, filled.isOf (known_of_whole (parts reached))] at verdict
    rw [isOf_terrain, verdict]
  · intro lacks path part reached below
    rw [isOf_terrain]
    rcases filled.reaches_of_after whole reached with stood | bare
    · rw [filled.isOf (known_of_whole (parts stood)), ← isOf_terrain]
      exact lacks path part stood below
    · exact bare.isOf type

/-! ### Counts of a filled tree -/

theorem member_alternate (known : ∀ id, value = .composite id → before.contents? value ≠ none) :
    after.member value "alternate" = before.member value "alternate" := by
  rw [member_eq_inner?, member_eq_inner?]
  cases stood : before.inner? value (.key "alternate") with
  | some part => rw [filled.inner?_of_before stood]
  | none =>
    cases entry : after.inner? value (.key "alternate") with
    | none => rfl
    | some part =>
      rcases filled.inner?_of_after known entry with old | ⟨_, _, key, _, named, _, null, _⟩
      · rw [stood] at old
        cases old
      · rw [null (SlotName.key.inj named).symm]
        rfl

section Verdict

variable (known : ∀ id, value = .composite id → before.contents? value ≠ none)
  (unshared : before.Unshared value) (unsharedAfter : after.Unshared value)

include known unshared unsharedAfter

theorem isTyped : (after.tree value).isTyped = (before.tree value).isTyped := by
  rw [Tree.isTyped, Tree.isTyped, type?_tree unsharedAfter, type?_tree unshared, filled.type? known]

theorem isForked : (after.tree value).isForked = (before.tree value).isForked := by
  rw [Tree.isForked, Tree.isForked, isOf_tree unsharedAfter, isOf_tree unshared, filled.isOf known,
    member_tree unsharedAfter, member_tree unshared, isNull_tree, isNull_tree,
    filled.member_alternate known]

theorem isUnknown : (after.tree value).isUnknown = (before.tree value).isUnknown := by
  rw [Tree.isUnknown, Tree.isUnknown, type?_tree unsharedAfter, type?_tree unshared,
    filled.type? known, inner?_tree unsharedAfter, inner?_tree unshared, Option.isSome_map,
    Option.isSome_map, filled.inner?_type known]

end Verdict

omit filled in
theorem tree_of_plain (known : ∀ id, value = .composite id → before.contents? value ≠ none)
    (plain : before.contents? value = none) (after : Store) :
    after.tree value = before.tree value := by
  cases value with
  | composite id => exact absurd plain (known id rfl)
  | _ => rfl

/-- A count does not change if no verdict on what was there changes. -/
theorem count_tree {test : Tree → Bool} (glances : Tree.Glances test)
    (verdict : ∀ {value}, (∀ id, value = .composite id → before.contents? value ≠ none) →
      before.Unshared value → after.Unshared value →
      test (after.tree value) = test (before.tree value)) (whole : before.Whole value)
    (unshared : before.Unshared value) (unsharedAfter : after.Unshared value) :
    (after.tree value).count test = (before.tree value).count test := by
  have within : before.Within value before.depthBound := unshared.within
  generalize before.depthBound = depth at within
  induction depth generalizing value with
  | zero =>
    rw [tree_of_plain (known_of_whole whole) within.plain after]
  | succ depth ih =>
    have known := known_of_whole whole
    have here : test (after.tree value) = test (before.tree value) :=
      verdict known unshared unsharedAfter
    have deeper {name : SlotName} {part : Value} (entry : before.inner? value name = some part) :
        (after.tree part).count test = (before.tree part).count test :=
      ih (whole.part ((part?_cons entry []).trans rfl)) (unshared.next entry)
        (unsharedAfter.next (filled.inner?_of_before entry)) (within.next entry)
    rw [Tree.count_eq, Tree.count_eq test (before.tree value), here]
    cases present : before.contents? value with
    | none => rw [tree_of_plain known present after]
    | some contents =>
      obtain ⟨id, rfl⟩ := exists_id_of_contents? present
      cases contents with
      | array items =>
        rw [tree_of_some unshared present, tree_of_some unsharedAfter (filled.array _ _ present)]
        show _ + Tree.countItems test _ = _ + Tree.countItems test _
        rw [Tree.countItems_eq, Tree.countItems_eq, List.map_map, List.map_map]
        refine congrArg (_ + List.sum ·) (List.map_congr_left fun item member => ?_)
        obtain ⟨_, entry⟩ := exists_name_of_mem present member
        exact deeper entry
      | object members =>
        obtain ⟨more, added, presentMore, entries, adds⟩ := filled.object _ _ present
        -- The members that have come count nothing.
        have nothing : (added.map fun entry => (after.tree entry.2).count test).sum = 0 := by
          refine List.sum_eq_zero_iff_forall_eq_nat.mpr fun counted member => ?_
          obtain ⟨entry, inside, rfl⟩ := List.mem_map.mp member
          exact (adds entry inside).2.1.count glances
        rw [tree_of_some unshared present, tree_of_some unsharedAfter presentMore]
        show _ + Tree.countMembers test _ = _ + Tree.countMembers test _
        rw [Tree.countMembers_eq, Tree.countMembers_eq, List.map_map, List.map_map, entries,
          List.map_append, List.sum_append]
        refine congrArg (Nat.add _) ((congrArg (Nat.add _) nothing).trans ?_)
        refine congrArg List.sum (List.map_congr_left fun member inside => ?_)
        exact deeper (inner?_of_mem present inside)

section Whole

variable (whole : before.Whole value) (unshared : before.Unshared value)
  (unsharedAfter : after.Unshared value)

include whole unshared unsharedAfter

theorem stock_tree : (after.tree value).stock = (before.tree value).stock := by
  rw [Tree.stock, Tree.stock,
    filled.count_tree Tree.glances_isTyped filled.isTyped whole unshared unsharedAfter,
    filled.count_tree Tree.glances_isForked filled.isForked whole unshared unsharedAfter]

theorem count_isUnknown :
    (after.tree value).count Tree.isUnknown = (before.tree value).count Tree.isUnknown :=
  filled.count_tree Tree.glances_isUnknown filled.isUnknown whole unshared unsharedAfter

end Whole

end Filled

end Store

end CodeTree
