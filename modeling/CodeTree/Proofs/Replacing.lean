/-
How a replacement ends. Once a cursor and its parent are in step, an element of an array gives
way to the replacements: the elements behind it move, the cursor takes the first replacement for
its value, and the others get cursors of their own. A member of an object is overwritten where
it stands or removed.
-/

import CodeTree.Proofs.Arrays
import CodeTree.Proofs.Growth
import CodeTree.Proofs.Repair

namespace CodeTree

variable {world : World} {c parent : CursorId} {items : List Value} {index : Nat}

namespace World

variable {d : CursorId}

/-! ### The cursor takes its replacement -/

/-- A cursor takes another value, and then lets go of its children, unless the values are the
same. -/
def revalue (world : World) (c : CursorId) (value : Value) : World :=
  if (world.value c).same value then world else (world.setValue c value).forgetAll c

section Revalue

theorem size_clear (world : World) (c : CursorId) (value : Value) :
    ((world.setValue c value).forgetAll c).cursors.size = world.cursors.size := by
  rw [(alike_forgetAll _ _).size]
  exact size_modifyCursor _ _ _

theorem value_clear_self (inside : c < world.cursors.size) (value : Value) :
    ((world.setValue c value).forgetAll c).value c = value := by
  rw [(alike_forgetAll _ _).value, value_setValue_self world inside]

theorem value_clear_other (different : d ≠ c) (value : Value) :
    ((world.setValue c value).forgetAll c).value d = world.value d := by
  rw [(alike_forgetAll _ _).value, value_setValue_other world different]

theorem kept?_clear (d : CursorId) (name : SlotName) (value : Value) :
    ((world.setValue c value).forgetAll c).kept? d name =
      if d = c then none else world.kept? d name := by
  rw [kept?_forgetAll, kept?_setValue]

theorem above?_clear (d : CursorId) (value : Value) :
    ((world.setValue c value).forgetAll c).above? d = world.above? d := by
  rw [(alike_forgetAll _ _).above, above?_setValue]

theorem Sound.clear (sound : Sound world) (c : CursorId) (value : Value) :
    Sound ((world.setValue c value).forgetAll c) :=
  (sound.setValue c value).forgetAll c

theorem Sound.revalue (sound : Sound world) (c : CursorId) (value : Value) :
    Sound (world.revalue c value) := by
  unfold World.revalue
  split
  · exact sound
  · exact sound.clear c value

theorem Forgotten.clear (forgotten : world.Forgotten d) (different : d ≠ c) (value : Value) :
    Leaves d world ((world.setValue c value).forgetAll c) :=
  (forgotten.setValue different value).trans
    ((forgotten.setValue different value).forgotten.forgetAll c)

theorem Forgotten.revalue {d : CursorId} (forgotten : world.Forgotten d) (different : d ≠ c)
    (value : Value) : Leaves d world (world.revalue c value) := by
  unfold World.revalue
  split
  · exact forgotten.refl
  · exact forgotten.clear different value

theorem store_revalue (value : Value) : (world.revalue c value).store = world.store := by
  unfold revalue
  split <;> rfl

theorem size_revalue (value : Value) :
    (world.revalue c value).cursors.size = world.cursors.size := by
  unfold revalue
  split
  · rfl
  · exact size_clear _ _ _

theorem value_revalue_self (inside : c < world.cursors.size) {value : Value}
    (proper : value.isNaN = false) : ((world.revalue c value).value c).same value = true := by
  unfold revalue
  split
  · assumption
  · rw [value_clear_self inside]
    exact Value.same_self proper

theorem value_revalue_other (different : d ≠ c) (value : Value) :
    (world.revalue c value).value d = world.value d := by
  unfold revalue
  split
  · rfl
  · exact value_clear_other different value

theorem kept?_revalue_other (different : d ≠ c) (value : Value) (name : SlotName) :
    (world.revalue c value).kept? d name = world.kept? d name := by
  unfold revalue
  split
  · rfl
  · rw [kept?_clear, if_neg different]

theorem above?_revalue (d : CursorId) (value : Value) :
    (world.revalue c value).above? d = world.above? d := by
  unfold revalue
  split
  · rfl
  · exact above?_clear d value

end Revalue

/-! ### Views -/

/-- A cursor that remembers nothing of its surroundings. -/
def withoutViews (world : World) (c : CursorId) : World :=
  world.modifyCursor c (fun cursor => { cursor with views := .empty })

theorem alike_withoutViews (world : World) (c : CursorId) : Alike world (world.withoutViews c) :=
  alike_modifyCursor world c _ fun _ => ⟨rfl, rfl, rfl⟩

theorem name?_withoutViews (world : World) (c d : CursorId) :
    (world.withoutViews c).name? d = world.name? d :=
  field_modifyCursor Cursor.name? world c d fun _ => rfl

theorem contents?_withoutViews (world : World) (c d : CursorId) :
    (world.withoutViews c).store.contents? ((world.withoutViews c).value d) =
      world.store.contents? (world.value d) := (alike_withoutViews world c).contents? d

theorem kept?_withoutViews (world : World) (c d : CursorId) (name : SlotName) :
    (world.withoutViews c).kept? d name = world.kept? d name :=
  field_modifyCursor (fun cursor => cursor.children.get? name) world c d fun _ => rfl

theorem Sound.withoutViews (sound : Sound world) (c : CursorId) : Sound (world.withoutViews c) :=
  sound.modifyViews c _

theorem Forgotten.withoutViews {d : CursorId} (forgotten : world.Forgotten d) (c : CursorId) :
    Leaves d world (world.withoutViews c) := by
  refine forgotten.of_alike (alike_withoutViews world c) (name?_withoutViews world c d) ?_
  intro parent name kept
  rw [kept?_withoutViews] at kept
  exact ⟨parent, name, kept⟩

/-! ### Members of an object -/

/-- The world after the member of a cursor has been removed. -/
def dropMember (world : World) (c parent : CursorId) (name : SlotName) : World :=
  ((({ world with store := world.store.eraseMember (world.value parent) name.text } : World).forget
    parent name).setValue c .null).forgetAll c

/-- The world after the member of a cursor has been overwritten. -/
def takeMember (world : World) (c parent : CursorId) (name : SlotName) (value : Value) : World :=
  ({ (if (world.value c).same value then world else world.forgetAll c) with
    store := world.store.setMember (world.value parent) name.text value } : World).setValue c value

theorem Sound.dropMember (sound : Sound world) (c parent : CursorId) (name : SlotName) :
    Sound (world.dropMember c parent name) :=
  ((sound.withStore _).forget parent name).clear c .null

theorem Sound.takeMember (sound : Sound world) (c parent : CursorId) (name : SlotName)
    (value : Value) : Sound (world.takeMember c parent name value) := by
  unfold World.takeMember
  split
  · exact (sound.withStore _).setValue c value
  · exact ((sound.forgetAll c).withStore _).setValue c value

theorem Forgotten.dropMember {d : CursorId} (forgotten : world.Forgotten d) (different : d ≠ c)
    (parent : CursorId) (name : SlotName) : Leaves d world (world.dropMember c parent name) := by
  have erased := forgotten.withStore (world.store.eraseMember (world.value parent) name.text)
  have dropped := erased.trans (erased.forgotten.forget parent name)
  exact dropped.trans (dropped.forgotten.clear different .null)

theorem Forgotten.takeMember {d : CursorId} (forgotten : world.Forgotten d) (different : d ≠ c)
    (parent : CursorId) (name : SlotName) (value : Value) :
    Leaves d world (world.takeMember c parent name value) := by
  have released : Leaves d world
      (if (world.value c).same value then world else world.forgetAll c) := by
    split
    · exact forgotten.refl
    · exact forgotten.forgetAll c
  have written := released.trans (released.forgotten.withStore
    (world.store.setMember (world.value parent) name.text value))
  exact written.trans (written.forgotten.setValue different value)

theorem value_dropMember_self (world : World) (parent : CursorId) (name : SlotName)
    (inside : c < world.cursors.size) : (world.dropMember c parent name).value c = .null := by
  refine value_clear_self ?_ .null
  rw [(alike_forget _ parent name).size]
  exact inside

section TakeMember

variable (world : World) (c parent : CursorId) (name : SlotName) (value : Value)

/-- Overwriting a member touches no cursor but the member's own. -/
theorem alike_takeMember_children : Alike world
    (if (world.value c).same value then world else world.forgetAll c) := by
  split
  · exact Alike.refl world
  · exact alike_forgetAll world c

theorem size_takeMember :
    (world.takeMember c parent name value).cursors.size = world.cursors.size :=
  (size_modifyCursor _ _ _).trans (alike_takeMember_children world c value).size

theorem value_takeMember_self (inside : c < world.cursors.size) :
    (world.takeMember c parent name value).value c = value := by
  refine value_setValue_self _ ?_ value
  show c < (if (world.value c).same value then world else world.forgetAll c).cursors.size
  rw [(alike_takeMember_children world c value).size]
  exact inside

theorem value_takeMember_other (different : d ≠ c) :
    (world.takeMember c parent name value).value d = world.value d :=
  (value_setValue_other _ different value).trans ((alike_takeMember_children world c value).value d)

theorem above?_takeMember (d : CursorId) :
    (world.takeMember c parent name value).above? d = world.above? d :=
  (above?_setValue _ c d value).trans ((alike_takeMember_children world c value).above d)

theorem kept?_takeMember (d : CursorId) (other : SlotName) :
    (world.takeMember c parent name value).kept? d other =
      if d = c ∧ (world.value c).same value = false then none else world.kept? d other := by
  refine (kept?_setValue _ c d value other).trans ?_
  show (if (world.value c).same value then world else world.forgetAll c).kept? d other = _
  cases (world.value c).same value with
  | true => simp
  | false => simp [kept?_forgetAll]

end TakeMember

theorem above?_of_parent? (living : world.parent? c = some parent) :
    world.above? c = some parent := by
  unfold parent? at living
  unfold above?
  split at living
  · cases living
  · rename_i remembered
    split at living
    · rw [remembered]
      exact living
    · cases living

end World

/-- The elements of a list with those from an index on, as many as given, replaced. -/
def splice {α : Type} (start removed : Nat) (added items : List α) : List α :=
  items.take start ++ added ++ items.drop (start + removed)

theorem length_splice {α : Type} {start removed : Nat} {added items : List α}
    (inside : start + removed ≤ items.length) :
    (splice start removed added items).length + removed = items.length + added.length := by
  simp only [splice, List.length_append, List.length_take, List.length_drop]
  omega

theorem getElem?_splice_added {α : Type} {start removed : Nat} {added items : List α}
    (inside : start ≤ items.length) {position : Nat} (early : position < added.length) :
    (splice start removed added items)[start + position]? = added[position]? := by
  have front : (items.take start).length = start := by simp [inside]
  rw [splice, List.append_assoc, List.getElem?_append_right (by omega), front,
    Nat.add_sub_cancel_left, List.getElem?_append_left early]

namespace Action

open World

variable {name : SlotName}

theorem replaceElement_key (characters : String) (items values : List Value) :
    replaceElement c parent (.key characters) items values world =
      .error (.error (.notAnElement characters)) world := by
  simp [replaceElement, SlotName.text]

theorem replaceElement_removed (beyond : items.length ≤ index) (values : List Value) :
    replaceElement c parent (.index index) items values world = .error (.fault .removed) world := by
  simp [replaceElement, Nat.not_lt_of_le beyond]

/-- The first of the new elements stands where the old one stood. -/
theorem getElem?_splice_first {items : List Value} {index : Nat} (inside : index < items.length)
    {first : Value} {rest : List Value} :
    (splice index 1 (first :: rest) items)[index]?.getD .null = first := by
  have added := @getElem?_splice_added Value index 1 (first :: rest) items
    (Nat.le_of_lt inside) 0 (Nat.succ_pos _)
  rw [Nat.add_zero] at added
  rw [added]
  rfl

/-- Nothing moves into the gap that the new elements fill. -/
theorem shifted_ne_gap {index added position : Nat} (after : index + 1 ≤ position)
    (before : position < index + 1 + added) :
    SlotName.shifted (index + 1) added name ≠ some (.index position) := by
  intro goes
  unfold SlotName.shifted SlotName.without at goes
  split at goes
  · cases goes
  · cases name with
    | key characters => cases goes
    | index old =>
      have equal := SlotName.index.inj (Option.some.inj goes)
      split at equal <;> omega

section Element

variable (inStep : InStep world c parent (.index index))
  (array : world.store.contents? (world.value parent) = some (.array items))
  (inside : index < items.length)

include inStep array inside

/-- Where the cursor stands at its element, the checks before and after the write pass. -/
theorem replaceElement_eq (values : List Value) :
    replaceElement c parent (.index index) items values world =
      (match values with
      | [] => do
        modify (fun world => world.forget parent (.index index))
        moveElements parent (index + 1) (-1)
        modify (fun world => (world.setValue c .null).forgetAll c)
        return []
      | first :: _ => do
        moveElements parent (index + 1) ((values.length : Int) - 1)
        insist (((splice index 1 values items)[index]?.getD .null).same first) .notReplaced
        if !((← get).value c).same first then
          modify (fun world => (world.setValue c first).forgetAll c)
        let results ← ofState (·.childrenAt parent ((List.range' index values.length).map .index))
        insist (results.head? == some c) .firstIsOther
        return results : Action (List CursorId))
      (world.writeItems parent (splice index 1 values items)) := by
  have agrees := inStep.agrees
  rw [Store.slot_array array] at agrees
  have length := @length_splice Value index 1 values items (Nat.succ_le_of_lt inside)
  have fits : ((items.take index ++ values ++ items.drop (index + 1)).length + 1 ==
      items.length + values.length) = true := beq_iff_eq.mpr length
  simp only [replaceElement, run_bind, run_insist, decide_eq_true inside, if_true, run_setItems,
    run_get]
  have agreesWritten : ((items[index]?.getD .null).same ((world.writeItems parent
      (splice index 1 values items)).value c)) = true := agrees
  simp only [splice, writeItems] at agreesWritten
  simp only [agreesWritten, if_true, fits]
  cases values <;> rfl

/-- An element that is replaced by nothing is removed, and its cursor left with null. -/
theorem replaceElement_nil :
    (∃ mid, replaceElement c parent (.index index) items [] world =
        .ok [] ((mid.setValue c .null).forgetAll c) ∧
      Rearranged (SlotName.without (.index index) (SlotName.shifted (index + 1) (-1))) parent
        (world.writeItems parent (splice index 1 [] items)) mid) ∨
    ∃ after position d, replaceElement c parent (.index index) items [] world =
        .error (.fault .indexRange) after ∧
      after.store = (world.writeItems parent (splice index 1 [] items)).store ∧
      index < position ∧ world.kept? parent (.index position) = some d ∧
      (indexBound : Int) ≤ position + (-1) := by
  have room := inStep.sound.parent_lt_size inStep.above
  have written := (inStep.sound.writeItems parent (splice index 1 [] items)).forget parent (.index index)
  have grown : parent < ((world.writeItems parent (splice index 1 [] items)).forget parent
      (.index index)).cursors.size := by
    rw [(alike_forget _ _ _).size]
    exact room
  have free : ((world.writeItems parent (splice index 1 [] items)).forget parent
      (.index index)).kept? parent (.index (index + 1 - 1)) = none := by
    rw [kept?_forget, if_pos ⟨rfl, rfl⟩]
  rw [replaceElement_eq inStep array inside]
  rcases run_moveElements written grown (Or.inr ⟨rfl, Nat.succ_pos _, free⟩) with
    ⟨mid, result, rearranged⟩ | ⟨after, result, store, _, position, d, behind, keptThere, beyond⟩
  · refine Or.inl ⟨mid, ?_, rearranged.after_forget⟩
    simp only [run_bind, run_modify, result, run_pure]
  · refine Or.inr ⟨after, position, d, ?_, store, behind, ?_, beyond⟩
    · simp only [run_bind, run_modify, result]
    · exact kept?_of_forget keptThere

/-- Once the elements behind have moved and the cursor has taken the first value, asking for the
slots of the values leads to the cursor and to new ones. -/
theorem childrenAt_gaveWay {first : Value} {rest : List Value} {mid : World}
    (rearranged : Rearranged (SlotName.shifted (index + 1) rest.length) parent
      (world.writeItems parent (splice index 1 (first :: rest) items)) mid)
    (proper : first.isNaN = false) :
    ∃ after, (mid.revalue c first).childrenAt parent
        ((List.range' index (first :: rest).length).map .index) =
          (c :: List.range' world.cursors.size rest.length, after) ∧
      Grown parent ((List.range' (index + 1) rest.length).map .index)
        (mid.revalue c first) after := by
  have room := inStep.sound.parent_lt_size inStep.above
  have apart : parent ≠ c := Nat.ne_of_lt (inStep.sound.older inStep.above)
  have sizes : (mid.revalue c first).cursors.size = world.cursors.size := by
    rw [size_revalue, rearranged.size]
    rfl
  have contents : (mid.revalue c first).store.contents? ((mid.revalue c first).value parent) =
      some (.array (splice index 1 (first :: rest) items)) := by
    rw [value_revalue_other apart, rearranged.value, store_revalue, rearranged.store]
    exact Store.contents?_modifyItems_self array _
  have keptStill : (mid.revalue c first).kept? parent (.index index) = some c := by
    rw [kept?_revalue_other apart]
    refine rearranged.entries.mpr ⟨.index index, inStep.kept, ?_⟩
    rw [SlotName.shifted, SlotName.without, if_neg (SlotName.index_ne_length _), SlotName.slide,
      if_neg (Nat.not_succ_le_self index)]
  have leads : (mid.revalue c first).child parent (.index index) = (c, mid.revalue c first) := by
    refine child_of_kept keptStill (Store.normalName_array contents _) ?_
    rw [Store.slot_array contents, getElem?_splice_first inside, Value.same_comm]
    refine value_revalue_self ?_ proper
    rw [rearranged.size]
    exact lt_size_of_above? inStep.above
  have fresh := @childrenAt_fresh (mid.revalue c first) parent
    ((List.range' (index + 1) rest.length).map .index) (by rw [sizes]; exact room)
    (List.Pairwise.map _ (fun _ _ different equal => different (SlotName.index.inj equal))
      List.nodup_range')
    (fun name _ => Store.normalName_array contents name)
    (fun name member => by
      obtain ⟨position, between, rfl⟩ := List.mem_map.mp member
      rw [List.mem_range'_1] at between
      rw [kept?_revalue_other apart]
      refine Option.eq_none_iff_forall_ne_some.mpr fun d found => ?_
      obtain ⟨old, _, goes⟩ := rearranged.entries.mp found
      exact absurd goes (shifted_ne_gap between.1 between.2))
  refine ⟨_, ?_, fresh.2⟩
  rw [List.length_cons, List.range'_succ, List.map_cons, childrenAt, leads]
  rw [sizes, List.length_map, List.length_range'] at fresh
  exact Prod.ext (congrArg (List.cons c) fresh.1) rfl

/-- An element that is replaced by values gives way to them: its cursor stands for the first, and
the others get new cursors behind it. -/
theorem replaceElement_cons (first : Value) (rest : List Value) :
    (∃ mid, Rearranged (SlotName.shifted (index + 1) rest.length) parent
        (world.writeItems parent (splice index 1 (first :: rest) items)) mid ∧
      ((first.isNaN = true ∧ replaceElement c parent (.index index) items (first :: rest) world =
          .error (.fault .notReplaced) mid) ∨
        first.isNaN = false ∧ ∃ after,
          replaceElement c parent (.index index) items (first :: rest) world =
            .ok (c :: List.range' world.cursors.size rest.length) after ∧
          Grown parent ((List.range' (index + 1) rest.length).map .index)
            (mid.revalue c first) after)) ∨
    ∃ after position d, replaceElement c parent (.index index) items (first :: rest) world =
        .error (.fault .indexRange) after ∧
      after.store = (world.writeItems parent (splice index 1 (first :: rest) items)).store ∧
      rest ≠ [] ∧ index < position ∧ world.kept? parent (.index position) = some d ∧
      (indexBound : Int) ≤ position + rest.length := by
  have room := inStep.sound.parent_lt_size inStep.above
  have written := inStep.sound.writeItems parent (splice index 1 (first :: rest) items)
  have offset : (((first :: rest).length : Nat) : Int) - 1 = rest.length := by
    rw [List.length_cons]
    omega
  have holds := @getElem?_splice_first items index inside first rest
  rw [replaceElement_eq inStep array inside]
  simp only [offset]
  rcases run_moveElements written room (Or.inl (Int.natCast_nonneg rest.length)) with
    ⟨mid, result, rearranged⟩ |
      ⟨after, result, store, moving, position, d, behind, keptThere, beyond⟩
  · refine Or.inl ⟨mid, rearranged, ?_⟩
    cases proper : first.isNaN with
    | true =>
      refine Or.inl ⟨rfl, ?_⟩
      have refused : first.same first = false := by
        refine Bool.eq_false_iff.mpr fun same => ?_
        rw [(Value.not_isNaN_of_same same).1] at proper
        cases proper
      simp only [run_bind, result, holds, refused, run_insist_false]
    | false =>
      obtain ⟨after, asked, grown⟩ :=
        childrenAt_gaveWay inStep array inside rearranged proper
      refine Or.inr ⟨rfl, after, ?_, grown⟩
      cases same : (mid.value c).same first with
      | true =>
        have here : mid.revalue c first = mid := if_pos same
        rw [here] at asked
        simp only [run_bind, result, holds, Value.same_self proper, run_insist_true, run_get, same,
          Bool.not_true, Bool.false_eq_true, if_false, run_ofState, asked, List.head?_cons,
          beq_self_eq_true, run_pure]
      | false =>
        have here : mid.revalue c first = (mid.setValue c first).forgetAll c :=
          if_neg (by rw [same]; exact Bool.false_ne_true)
        rw [here] at asked
        simp only [run_bind, result, holds, Value.same_self proper, run_insist_true, run_get, same,
          Bool.not_false, if_true, run_modify, run_ofState, asked, List.head?_cons,
          beq_self_eq_true, run_pure]
  · refine Or.inr ⟨after, position, d, ?_, store, ?_, behind, keptThere, beyond⟩
    · simp only [run_bind, result]
    · rintro rfl
      exact moving rfl

end Element

/-! ### Members -/

theorem replaceMember_nil (name : SlotName) :
    replaceMember c parent name [] world = .ok [] (world.dropMember c parent name) := rfl

theorem replaceMember_single (name : SlotName) (value : Value) :
    replaceMember c parent name [value] world = .ok [c] (world.takeMember c parent name value) := by
  simp only [replaceMember, run_bind, run_get, run_modify, run_pure, takeMember]
  split <;> rfl

theorem replaceMember_many (name : SlotName) (first second : Value) (rest : List Value) :
    replaceMember c parent name (first :: second :: rest) world =
      .error (.error (.tooManyForKey name.text (first :: second :: rest).length)) world := rfl

/-! ### The whole replacement -/

/-- What a replacement does once the cursor and its parent are in step. -/
def replaceInStep (c parent : CursorId) (values : List Value) : Action (List CursorId) := do
  let world ← get
  let some name := world.name? c | refuse .noParent
  match world.store.contents? (world.value parent) with
  | some (.array items) => replaceElement c parent name items values
  | some (.object _) => replaceMember c parent name values
  | none => refuse (.parentNotContainer (world.shownName c))

theorem replace_of_none (orphan : world.parent? c = none) (values : List Value) :
    replace c values world = .error (.error .noParent) world := by
  simp [replace, orphan]

theorem replace_of_some (living : world.parent? c = some parent) (values : List Value) :
    replace c values world =
      match repair c parent (world.withoutViews c) with
      | .ok _ world => replaceInStep c parent values world
      | .error halt world => .error halt world := by
  simp only [replace, run_bind, run_get, living, run_modify, replaceInStep, withoutViews]
  cases repair c parent (world.modifyCursor c fun cursor => { cursor with views := .empty }) <;> rfl

theorem replaceInStep_array {name : SlotName} (named : world.name? c = some name)
    (array : world.store.contents? (world.value parent) = some (.array items)) (values : List Value) :
    replaceInStep c parent values world = replaceElement c parent name items values world := by
  simp [replaceInStep, named, array]

theorem replaceInStep_object {members : Assoc String Value} (named : world.name? c = some name)
    (object : world.store.contents? (world.value parent) = some (.object members))
    (values : List Value) :
    replaceInStep c parent values world = replaceMember c parent name values world := by
  simp [replaceInStep, named, object]

theorem replaceInStep_plain (named : world.name? c = some name)
    (plain : world.store.contents? (world.value parent) = none) (values : List Value) :
    replaceInStep c parent values world =
      .error (.error (.parentNotContainer (world.shownName c))) world := by
  simp [replaceInStep, named, plain]

theorem replaceWith_eq (c : CursorId) (value : Value) :
    replaceWith c value = (fun results => results.headD c) <$> replace c [value] := by
  funext world
  simp only [replaceWith, run_bind, run_map, run_pure]

theorem remove_eq (c : CursorId) : remove c = (fun _ => ()) <$> replace c [] := by
  funext world
  simp only [remove, run_bind, run_map, run_pure]

end Action

end CodeTree
