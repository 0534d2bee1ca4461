/-
Cursors in their seats. A walk asks for cursors, takes hold of them and lets them go, fills in
defaults and asks questions, but it moves nothing. All the while a cursor at a composite stands in
the slot that it bears the name of, and what cursors remember of the nodes around them is true. While
the cursors above one are held, it is placed at the end of its path.
-/

import CodeTree.Proofs.Placements
import CodeTree.Proofs.Strolling

namespace CodeTree

variable {world : World} {store : Store} {root : Value} {c : CursorId} {path : List SlotName}

/-! ### Filling in a default -/

/-- The default of a prefix is that there is one. -/
theorem Store.fieldDefault?_prefix {value : Value} {default : FieldDefault}
    (found : store.fieldDefault? value "prefix" = some default) : default = .bool true := by
  obtain ⟨type, _, declared⟩ := Option.bind_eq_some_iff.mp found
  obtain ⟨field, among, filled⟩ := Option.bind_eq_some_iff.mp declared
  have named : field.name = "prefix" := by
    simpa using List.find?_some among
  rcases NodeType.mem_collectFields (List.mem_of_find?_eq_some among) with impossible | ⟨own, member⟩
  · cases impossible
  · have checked : (own.ownFields.all fun field => field.default?.all fun default =>
        field.name != "prefix" || default == .bool true) = true := by
      cases own <;> rfl
    have known := List.all_eq_true.mp checked field member
    rw [filled, Option.all_some, named, Bool.or_eq_true, bne_self_eq_false, beq_iff_eq] at known
    exact known.resolve_left Bool.false_ne_true

theorem Store.member_setMember {holder : Value} {members : Assoc String Value}
    (object : store.contents? holder = some (.object members)) (key : String) (value other : Value)
    (name : String) :
    (store.setMember holder key value).member other name =
      if other = holder ∧ name = key then value else store.member other name := by
  by_cases same : other = holder
  · subst same
    rw [Store.member, Store.members?, Store.setMember, contents?_modifyMembers_self object,
      Store.member, Store.members?, object]
    simp only [Option.bind_some, Assoc.get?_insert, true_and]
    split <;> rfl
  · rw [if_neg fun both => same both.1, Store.member, Store.members?, Store.setMember,
      contents?_modifyMembers_other _ same, Store.member, Store.members?]

/-- Whether a value is said to have its operator behind its operand. -/
def Store.isPostfix (store : Store) (value : Value) : Bool :=
  (store.member value "prefix").bool? == some false

namespace World

section FillField

variable (world : World) (value : Value) (key : String)

/-- Members are as they were, but for one that was lacking and has its default now. -/
theorem member_fillField (other : Value) (name : String) :
    (world.fillField value key).store.member other name = world.store.member other name ∨
    name = key ∧ world.store.member other name = .null ∧
      ∃ default, world.store.fieldDefault? value key = some default ∧
        (world.fillField value key).store.member other name =
          (default.toValue.run world.store).1 := by
  rcases world.fillField_cases value key with
    ⟨same, _⟩ | ⟨members, default, store, part, object, absent, found, _, made, rfl, result⟩
  · rw [same]
    exact .inl rfl
  · rw [result]
    dsimp only
    rw [Store.member_setMember (made.stays _ _ object), made.member]
    split
    · rename_i both
      obtain ⟨rfl, rfl⟩ := both
      refine .inr ⟨rfl, ?_, default, found, rfl⟩
      rw [Store.member, Store.members?, object, Option.bind_some, absent, Option.getD_none]
    · exact .inl rfl

theorem type?_fillField (other : Value) :
    (world.fillField value key).store.type? other = world.store.type? other := by
  rcases world.member_fillField value key other "type" with same | ⟨named, _, default, found, _⟩
  · rw [Store.type?, Store.typeName?, same, ← Store.typeName?, ← Store.type?]
  · exact absurd named.symm (Store.fieldDefault?_eq_some found).1

/-- What is filled in is no postfix operator's. -/
theorem isPostfix_fillField (other : Value) :
    (world.fillField value key).store.isPostfix other = world.store.isPostfix other := by
  rcases world.member_fillField value key other "prefix" with
    same | ⟨rfl, null, default, found, filled⟩
  · rw [Store.isPostfix, same, Store.isPostfix]
  · cases Store.fieldDefault?_prefix found
    rw [Store.isPostfix, filled, Store.isPostfix, null]
    rfl

theorem member_fillField_plain {name : String} (plain : name ∈ NodeType.plainKeys) (other : Value) :
    (world.fillField value key).store.member other name = world.store.member other name := by
  rcases world.member_fillField value key other name with same | ⟨rfl, _, _, found, _⟩
  · exact same
  · rw [Store.fieldDefault?_plain plain] at found
    cases found

end FillField

/-! ### Seats -/

/-- The cursors of a world stand below a value, each that is at a composite in the slot that it bears
the name of, and all that they remember is true. -/
structure Seated (root : Value) (world : World) : Prop where
  top : ∀ {c}, c < world.cursors.size → world.above? c = none → world.value c = root
  slot : ∀ {c parent name id}, world.above? c = some parent → world.name? c = some name →
    world.value c = .composite id →
    world.store.inner? (world.value parent) name = some (world.value c)
  fresh : Fresh (fun _ => True) world

section Seated

variable (seated : Seated root world)

include seated

theorem Seated.handles (held : List CursorId) : Seated root { world with held } where
  top := seated.top
  slot := seated.slot
  fresh c _ := (seated.fresh c trivial).transfer
    ⟨line_congr fun _ _ => rfl, fun _ _ => rfl, fun _ _ _ => rfl, Nat.le_refl _, fun _ => rfl⟩

theorem Seated.learned {after : World} (learns : Learns (fun _ => True) world after) :
    Seated root after where
  top inside topmost := by
    rw [learns.glances.size] at inside
    rw [learns.glances.above?] at topmost
    rw [learns.glances.value, seated.top inside topmost]
  slot above bears here := by
    rw [learns.glances.above?] at above
    rw [learns.glances.name?] at bears
    rw [learns.glances.value] at here
    rw [learns.glances.store, learns.glances.value, learns.glances.value]
    exact seated.slot above bears here
  fresh := learns.fresh

theorem Seated.filled (value : Value) (key : String) : Seated root (world.fillField value key) := by
  have filled := world.filled_fillField value key
  have type := world.type?_fillField value key
  obtain ⟨store, result⟩ := world.fillField_eq value key
  rw [result] at filled type ⊢
  refine ⟨seated.top, fun above bears here => ?_, fun c _ => ?_⟩
  · exact filled.inner?_of_before (seated.slot above bears here)
  · exact (seated.fresh c trivial).transfer ⟨line_congr fun _ _ => rfl, fun d _ => type _,
      fun _ _ _ => rfl, Nat.le_refl _, fun _ => rfl⟩

theorem Seated.child (sound : Sound world) (inside : c < world.cursors.size) (name : SlotName) :
    Seated root (world.child c name).2 := by
  rcases world.child_cases c name with ⟨_, _, _, result⟩ | ⟨_, result⟩
  · rw [result]
    exact seated
  · rw [result]
    generalize normal : world.store.normalName (world.value c) name = slot
    have normalSlot : world.store.normalName (world.value c) slot = slot := by
      rw [← normal, Store.normalName_normalName]
    have keeps := keeps_addChild world c slot (world.store.slot (world.value c) slot)
    have quiet := quiet_addChild world c slot (world.store.slot (world.value c) slot)
    refine ⟨fun {d} insideAfter topmost => ?_, fun {d parent own id} above bears here => ?_,
      fun d _ => ?_⟩
    · rw [above?_addChild] at topmost
      split at topmost
      · cases topmost
      · rename_i old
        rw [size_addChild] at insideAfter
        have insideBefore := Nat.lt_of_le_of_ne (Nat.le_of_lt_succ insideAfter) old
        rw [keeps.value insideBefore]
        exact seated.top insideBefore topmost
    · rw [above?_addChild] at above
      rw [name?_addChild] at bears
      rw [value_addChild] at here
      rw [store_addChild, value_addChild, value_addChild]
      split at above
      · rename_i new
        cases above
        rw [if_pos new] at bears here ⊢
        cases bears
        rw [if_neg (Nat.ne_of_lt inside), here]
        exact Store.inner?_of_slot normalSlot here
      · rename_i old
        rw [if_neg old] at bears here ⊢
        rw [if_neg (Nat.ne_of_lt (sound.parent_lt_size above))]
        exact seated.slot above bears here
    · rcases quiet.views d with same | empty
      · rw [same]
        by_cases insideBefore : d < world.cursors.size
        · have value {e : CursorId} (member : e ∈ world.line d) :=
            keeps.value (Nat.lt_of_le_of_lt (sound.le_of_mem_line member) insideBefore)
          refine (seated.fresh d trivial).transfer ⟨?_, fun e member => ?_,
            fun e member _ => value member, Nat.le_refl _, fun _ => rfl⟩
          · exact line_congr fun e older => keeps.above (Nat.lt_of_le_of_lt older insideBefore)
          · rw [typeAt?, store_addChild, value member, typeAt?]
        · rw [views_of_size_le (Nat.le_of_not_lt insideBefore)]
          exact truthful_empty _ d
      · rw [empty]
        exact truthful_empty _ d

end Seated

/-! ### Cursors that are held -/

/-- While all cursors above it are held, a cursor climbs past living ones. -/
theorem Rises.grounded (rises : world.Rises path c) (sound : Sound world) :
    Grounded (fun _ => True) world c := by
  induction rises with
  | top _ topmost _ => exact grounded_top sound topmost
  | step rises above _ _ ih =>
    exact ih.down sound above rises.isAlive trivial

/-- While all cursors above it are held, a cursor in its seat is placed. -/
theorem Rises.placed (rises : world.Rises path c) (seated : Seated root world) {id : CompositeId}
    (here : world.value c = .composite id) : world.Placed root path c := by
  induction rises generalizing id with
  | top inside topmost _ => exact .top topmost (seated.top inside topmost)
  | @step path name c parent rises above bears _ ih =>
    have slot := seated.slot above bears here
    obtain ⟨outer, there⟩ := Store.exists_id_of_inner? slot
    exact .step (ih there) rises.isAlive above bears slot

end World

end CodeTree
