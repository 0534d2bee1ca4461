/-
The effects of edits in a coherent world. A splice of an array, a replacement of an element and
a write to a member each have an effect as edits have it: every child that is kept afterwards
agrees with its slot, and nothing but the edited container and the replaced child is touched.
-/

import CodeTree.Proofs.Splicing

namespace CodeTree

variable {after before mid world : World} {first : Value} {c parent x : CursorId}
  {added items rest : List Value} {removed start : Nat} {name other target : SlotName}

namespace SlotName

/-- A slot of an array that moves from one list of elements to another: an element keeps what
stands in it, and of the other names only the length is no slot. -/
def Follows (items written : List Value) (name target : SlotName) : Prop :=
  (∃ position other, name = index position ∧ target = index other ∧
    written[other]? = items[position]?) ∨
  ∃ characters, name = key characters ∧ target = key characters ∧ characters ≠ "length"

theorem follows_spliced (inside : start ≤ items.length)
    (goes : spliced start removed added.length name = some target) :
    Follows items (splice start removed added items) name target := by
  cases name with
  | key characters =>
    rw [spliced] at goes
    split at goes
    · cases goes
    · rename_i other
      cases goes
      exact Or.inr ⟨characters, rfl, rfl, other⟩
  | index position =>
    rw [spliced] at goes
    split at goes
    · rename_i front
      cases goes
      exact Or.inl ⟨position, position, rfl, rfl, getElem?_splice_front inside front⟩
    · split at goes
      · cases goes
      · rename_i behind
        cases goes
        exact Or.inl ⟨position, _, rfl, rfl,
          getElem?_splice_behind inside (Nat.le_of_not_lt behind)⟩

/-- Slots of an array in which an element gives way to values: the elements behind it move, and
every element but that one keeps what stands in it. -/
theorem follows_replaced {gap : Nat} (inside : gap < items.length) (other : name ≠ index gap)
    (goes : spliced (gap + 1) 0 rest.length name = some target) :
    Follows items (splice gap 1 (first :: rest) items) name target := by
  refine follows_spliced (Nat.le_of_lt inside) ?_
  cases name with
  | key characters => exact goes
  | index position =>
    have apart : position ≠ gap := fun same => other (congrArg index same)
    rw [spliced] at goes ⊢
    by_cases front : position < gap
    · rw [if_pos (by omega)] at goes
      rw [if_pos front, goes]
    · rw [if_neg (by omega), if_neg (by omega)] at goes
      rw [if_neg front, if_neg (by omega), ← goes, List.length_cons]
      congr 2
      omega

end SlotName

namespace World

variable {move : SlotName → Option SlotName} {d : CursorId} {new? : Option Composite}

/-- No cursor at all. -/
abbrev nobody (_ : CursorId) : Prop := False

/-- A child that follows its element still agrees with its slot. -/
theorem Agrees.moved {written : List Value} (agrees : Agrees before parent name c)
    (array : before.store.contents? (before.value parent) = some (.array items))
    (arrayAfter : after.store.contents? (after.value parent) = some (.array written))
    (value : after.value c = before.value c) (follows : SlotName.Follows items written name target) :
    Agrees after parent target c := by
  have same := agrees.same
  rcases follows with ⟨position, other, rfl, rfl, stays⟩ | ⟨characters, rfl, rfl, proper⟩
  · rw [Store.slot_array array] at same
    refine ⟨?_, Store.normalName_array arrayAfter _, ?_⟩
    · rw [Store.slot_array arrayAfter, stays, value]
      exact same
    · intro items' position' array' named
      rw [arrayAfter] at array'
      cases array'
      cases named
      have inside := agrees.inside array rfl
      rw [List.getElem?_eq_getElem inside] at stays
      exact (List.getElem?_eq_some_iff.mp stays).1
  · rw [Store.slot_key_array array proper] at same
    refine ⟨?_, Store.normalName_array arrayAfter _, fun _ impossible => nomatch impossible⟩
    rw [Store.slot_key_array arrayAfter proper, value]
    exact same

/-- A child that stands for an element of an array agrees with the element's slot. -/
theorem agrees_element {position : Nat} {item : Value}
    (array : world.store.contents? (world.value parent) = some (.array items))
    (holds : items[position]? = some item) (same : item.same (world.value c) = true) :
    Agrees world parent (.index position) c := by
  refine ⟨?_, Store.normalName_array array _, ?_⟩
  · rw [Store.slot_array array, holds]
    exact same
  · intro items' position' array' named
    rw [array] at array'
    cases array'
    cases named
    exact (List.getElem?_eq_some_iff.mp holds).1

/-- A child that stands for a member of an object agrees with the member's slot. -/
theorem agrees_object {members : Assoc String Value}
    (object : world.store.contents? (world.value parent) = some (.object members))
    (normal : .key name.text = name)
    (same : ((members.get? name.text).getD .null).same (world.value c) = true) :
    Agrees world parent name c := by
  refine ⟨?_, (Store.normalName_object object name).trans normal, fun array => ?_⟩
  · rw [Store.slot_object object]
    exact same
  · rw [object] at array
    cases array

/-! ### Splices -/

/-- Where an edit only writes and rearranges, and every child ends up in agreement, it has an
effect as edits have it. -/
theorem Rearranged.effect {move : SlotName → Option SlotName} {store : Store}
    {new? : Option Composite} (rearranged : Rearranged move x { before with store } after)
    (sound : Sound before) (written : store.contents? (before.value x) = new?)
    (others : ∀ {value}, value ≠ before.value x →
      store.contents? value = before.store.contents? value)
    (agrees : ∀ {name target d}, before.kept? x name = some d → move name = some target →
      Agrees after x target d) : Effect x nobody nobody move new? before after where
  sound := rearranged.sound (sound.withStore store)
  size := Nat.le_of_eq rearranged.size.symm
  above _ := rearranged.above _
  written := by
    rw [rearranged.store]
    exact written
  contents different := by
    rw [rearranged.store]
    exact others different
  value _ _ := rearranged.value _
  below impossible := impossible.elim
  still impossible := impossible.elim
  kept different _ name := rearranged.others different name
  empty impossible := impossible.elim
  survives kept goes := rearranged.entries.mpr ⟨_, kept, goes⟩
  entries kept := by
    obtain ⟨name, keptBefore, goes⟩ := rearranged.entries.mp kept
    exact ⟨Or.inr ⟨name, keptBefore⟩, agrees keptBefore goes⟩

section Array

variable (sound : Sound world) (array : world.store.contents? (world.value x) = some (.array items))
  (agrees : ∀ {name d}, world.kept? x name = some d → Agrees world x name d)

include sound array agrees

theorem Spliced.effect (spliced : Spliced x items start removed added world after)
    (inside : start ≤ items.length) :
    Effect x nobody nobody (SlotName.spliced start removed added.length)
      (some (.array (splice start removed added items))) world after := by
  have written : (world.store.modifyItems (world.value x)
      (fun _ => splice start removed added items)).contents? (world.value x) =
      some (.array (splice start removed added items)) :=
    Store.contents?_modifyItems_self array _
  refine Rearranged.effect spliced sound written
    (fun different => Store.contents?_modifyItems_other _ different _) ?_
  intro name target d kept goes
  have alike := Rearranged.toAlike spliced
  refine (agrees kept).moved array ?_ (alike.value d) (SlotName.follows_spliced inside goes)
  rw [alike.store, alike.value]
  exact written

omit array in
/-- An edit that does nothing. -/
theorem Effect.none (still : ∀ {name target}, move name = some target → target = name) :
    Effect x nobody nobody move (world.store.contents? (world.value x)) world world where
  sound := sound
  size := Nat.le_refl _
  above _ := rfl
  written := rfl
  contents _ := rfl
  value _ _ := rfl
  below impossible := impossible.elim
  still impossible := impossible.elim
  kept _ _ _ := rfl
  empty impossible := impossible.elim
  survives kept goes := by
    rw [still goes]
    exact kept
  entries kept := ⟨Or.inr ⟨_, kept⟩, agrees kept⟩

end Array

/-! ### Children that take another value -/

/-- A child that is no longer kept takes another value and lets go of its own children. -/
theorem Effect.clear {move : SlotName → Option SlotName} {new? : Option Composite}
    (effect : Effect x nobody nobody move new? before mid) (older : x ≠ c)
    (above : before.above? c = some x) (dropped : ∀ name, mid.kept? x name ≠ some c) (value : Value) :
    Effect x (· = c) (· = c) move new? before ((mid.setValue c value).forgetAll c) where
  sound := effect.sound.clear c value
  size := by
    rw [size_clear]
    exact effect.size
  above inside := by
    rw [above?_clear]
    exact effect.above inside
  written := effect.written
  contents := effect.contents
  value inside different := by
    rw [value_clear_other different]
    exact effect.value inside id
  below same := same ▸ above
  still same full := absurd same full
  kept different full name := by
    rw [kept?_clear, if_neg full]
    exact effect.kept different id name
  empty same := ⟨same, fun name => by rw [kept?_clear, if_pos same]⟩
  survives kept goes := by
    rw [kept?_clear, if_neg older]
    exact effect.survives kept goes
  entries {target d} kept := by
    rw [kept?_clear, if_neg older] at kept
    obtain ⟨known, agrees⟩ := effect.entries kept
    have different : d ≠ c := fun same => dropped target (same ▸ kept)
    refine ⟨known, agrees.congr ?_ (value_clear_other different value)⟩
    rw [value_clear_other older]
    rfl

/-! ### Elements that are replaced -/

/-- The slots of the new elements behind an index. -/
theorem getElem?_gap {index place count : Nat} (early : place < count) :
    ((List.range' (index + 1) count).map SlotName.index)[place]? =
      some (.index (index + (place + 1))) := by
  rw [List.getElem?_map, List.getElem?_range' early, Option.map_some, Nat.one_mul, Nat.add_assoc,
    Nat.add_comm 1]

theorem mem_gap {index count : Nat} :
    name ∈ (List.range' (index + 1) count).map SlotName.index ↔
      ∃ place < count, name = .index (index + (place + 1)) := by
  rw [List.mem_map]
  constructor
  · rintro ⟨position, between, rfl⟩
    rw [List.mem_range'_1] at between
    exact ⟨position - (index + 1), by omega, by congr 1; omega⟩
  · rintro ⟨place, early, rfl⟩
    exact ⟨_, List.mem_range'_1.mpr ⟨by omega, by omega⟩, rfl⟩

section Element

variable {index : Nat} (sound : Sound world) (kept : world.kept? parent (.index index) = some c)
  (array : world.store.contents? (world.value parent) = some (.array items))
  (agrees : ∀ {name d}, world.kept? parent name = some d → Agrees world parent name d)

include sound kept array agrees

omit sound in
/-- In an array that fits once an element has given way to values, no child is moved too far. -/
theorem not_beyond {values : List Value} {position : Nat} (fits : after.store.Fits)
    (store : after.store = (world.writeItems parent (splice index 1 values items)).store)
    (keptThere : world.kept? parent (.index position) = some d) :
    position + values.length ≤ indexBound := by
  have contents : after.store.contents? (world.value parent) =
      some (.array (splice index 1 values items)) := by
    rw [store]
    exact Store.contents?_modifyItems_self array _
  have bounded := fits contents
  have length := @length_splice Value index 1 values items
    (Nat.succ_le_of_lt ((agrees kept).inside array rfl))
  have smaller := (agrees keptThere).inside array rfl
  omega

/-- Replacing an element by nothing takes it out of the array. -/
theorem replaceElement_nil_effect
    (fits : (ended (Action.replaceElement c parent (.index index) items [] world)).store.Fits) :
    ∃ after, Action.replaceElement c parent (.index index) items [] world = .ok [] after ∧
      Effect parent (· = c) (· = c) (SlotName.spliced index 1 0)
        (some (.array (splice index 1 [] items))) world after := by
  have inside := (agrees kept).inside array rfl
  rcases Action.replaceElement_nil ((agrees kept).inStep sound kept) array inside with
    ⟨mid, result, rearranged⟩ | ⟨after, position, d, result, store, _, keptThere, beyond⟩
  · refine ⟨_, result, ?_⟩
    rw [SlotName.without_shifted_eq_spliced] at rearranged
    have spliced : Spliced parent items index 1 [] world mid := rearranged
    refine (spliced.effect sound array agrees (Nat.le_of_lt inside)).clear
      (Nat.ne_of_lt (sound.lt_of_kept kept)) (sound.kept kept).1 ?_ .null
    -- Nothing but the cursor itself was kept at the gap, and the gap moves nowhere.
    intro name keptStill
    obtain ⟨old, keptBefore, goes⟩ := rearranged.entries.mp keptStill
    obtain ⟨_, rfl⟩ := sound.kept_unique kept keptBefore
    rw [SlotName.spliced, if_neg (Nat.lt_irrefl index), if_pos (Nat.lt_succ_self index)] at goes
    cases goes
  · rw [result] at fits
    have bounded := not_beyond kept array agrees fits store keptThere
    omega

/-! ### Elements that give way to values -/

section Values

variable (proper : ∀ value ∈ first :: rest, value.isNaN = false)
  (rearranged : Rearranged (SlotName.spliced (index + 1) 0 rest.length) parent
    (world.writeItems parent (splice index 1 (first :: rest) items)) mid)
  (grown : Grown parent ((List.range' (index + 1) rest.length).map .index)
    (mid.revalue c first) after)

omit sound kept array agrees

include rearranged in
theorem size_gaveWay : (mid.revalue c first).cursors.size = world.cursors.size := by
  rw [size_revalue, rearranged.size]
  rfl

include rearranged grown

theorem store_gaveWay : after.store = world.store.modifyItems (world.value parent)
    (fun _ => splice index 1 (first :: rest) items) := by
  rw [grown.store, store_revalue, rearranged.store]
  rfl

theorem value_gaveWay_other (old : d < world.cursors.size) (different : d ≠ c) :
    after.value d = world.value d := by
  rw [grown.value (by rw [size_gaveWay rearranged]; exact old), value_revalue_other different,
    rearranged.value]
  rfl

/-- The cursor of the element stands for the first value. -/
theorem value_gaveWay_self (inside : c < world.cursors.size) (properFirst : first.isNaN = false) :
    (after.value c).same first = true := by
  rw [grown.value (by rw [size_gaveWay rearranged]; exact inside)]
  refine value_revalue_self ?_ properFirst
  rw [rearranged.size]
  exact inside

include array in
/-- A new cursor has its value. -/
theorem value_gaveWay_new (apart : parent ≠ c) (inside : index < items.length) {place : Nat}
    (early : place < rest.length) : after.value (world.cursors.size + place) = rest[place] := by
  have stands := grown.valueNew (getElem?_gap early)
  rw [store_revalue, value_revalue_other apart, rearranged.store, rearranged.value,
    size_gaveWay rearranged] at stands
  have holds := @getElem?_splice_added Value index 1 (first :: rest) items (Nat.le_of_lt inside) _
    (Nat.succ_lt_succ early)
  rw [List.getElem?_cons_succ, List.getElem?_eq_getElem early] at holds
  refine (stands.trans (Store.slot_array (Store.contents?_modifyItems_self array _) _)).trans ?_
  exact congrArg (Option.getD · Value.null) holds

include sound kept array

theorem contents?_gaveWay : after.store.contents? (after.value parent) =
    some (.array (splice index 1 (first :: rest) items)) := by
  have older := sound.lt_of_kept kept
  rw [value_gaveWay_other rearranged grown (lt_size_of_kept? kept) (Nat.ne_of_lt older),
    store_gaveWay rearranged grown]
  exact Store.contents?_modifyItems_self array _

include agrees proper

/-- A new cursor stands for its value. -/
theorem agrees_gaveWay_new {place : Nat} (early : place < rest.length) :
    Agrees after parent (.index (index + (place + 1))) (world.cursors.size + place) := by
  have inside := (agrees kept).inside array rfl
  have holds := @getElem?_splice_added Value index 1 (first :: rest) items (Nat.le_of_lt inside) _
    (Nat.succ_lt_succ early)
  rw [List.getElem?_cons_succ, List.getElem?_eq_getElem early] at holds
  refine agrees_element (contents?_gaveWay sound kept array rearranged grown) holds ?_
  rw [value_gaveWay_new array rearranged grown (Nat.ne_of_lt (sound.lt_of_kept kept)) inside early]
  exact Value.same_self (proper _ (List.mem_cons_of_mem _ (List.getElem_mem early)))

/-- A child that was there agrees with the slot that it has moved to. -/
theorem agrees_gaveWay_old (keptBefore : world.kept? parent name = some d)
    (goes : SlotName.spliced (index + 1) 0 rest.length name = some target) :
    Agrees after parent target d := by
  have inside := (agrees kept).inside array rfl
  have arrayAfter := contents?_gaveWay sound kept array rearranged grown
  by_cases self : name = .index index
  · subst self
    have same : c = d := Option.some.inj (kept.symm.trans keptBefore)
    subst same
    rw [SlotName.spliced, if_pos (Nat.lt_succ_self index)] at goes
    cases goes
    have holds := @getElem?_splice_added Value index 1 (first :: rest) items
      (Nat.le_of_lt inside) 0 (Nat.succ_pos rest.length)
    refine agrees_element arrayAfter holds ?_
    rw [Value.same_comm]
    exact value_gaveWay_self rearranged grown (sound.kept kept).2.2
      (proper first List.mem_cons_self)
  · refine (agrees keptBefore).moved array arrayAfter (value_gaveWay_other rearranged grown ?_ ?_)
      (SlotName.follows_replaced inside self goes)
    · exact (sound.kept keptBefore).2.2
    · rintro rfl
      exact self (sound.kept_unique keptBefore kept).2

/-- The cursor of an element that is replaced by values stands for the first of them, and the
others get new cursors behind it. -/
theorem gaveWay_effect :
    Effect parent (· = c) (fun d => d = c ∧ (world.value c).same first = false)
      (SlotName.spliced (index + 1) 0 rest.length)
      (some (.array (splice index 1 (first :: rest) items))) world after := by
  obtain ⟨above, bears, young⟩ := sound.kept kept
  have older : parent < c := sound.lt_of_kept kept
  have apart : parent ≠ c := Nat.ne_of_lt older
  have size : (mid.revalue c first).cursors.size = world.cursors.size := size_gaveWay rearranged
  have soundMid := rearranged.sound (sound.writeItems parent _)
  have midValue : mid.value c = world.value c := rearranged.value c
  have keptOld {target : SlotName}
      (outside : target ∉ (List.range' (index + 1) rest.length).map SlotName.index) :
      after.kept? parent target = mid.kept? parent target := by
    rw [grown.kept (fun _ => outside), kept?_revalue_other apart]
  refine ⟨?_, ?_, ?_, ?_, ?_, ?_, ?_, ?_, ?_, ?_, ?_, ?_⟩
  · refine grown.sound (soundMid.revalue c first) ?_
    rw [size]
    exact Nat.lt_trans older young
  · rw [grown.size, size]
    exact Nat.le_add_right _ _
  · intro d old
    rw [grown.above (by rw [size]; exact old), above?_revalue, rearranged.above]
    rfl
  · rw [store_gaveWay rearranged grown]
    exact Store.contents?_modifyItems_self array _
  · intro other different
    rw [store_gaveWay rearranged grown]
    exact Store.contents?_modifyItems_other _ different _
  · exact fun old different => value_gaveWay_other rearranged grown old different
  · rintro d rfl
    exact above
  · rintro d rfl full
    have sameFirst : (world.value d).same first = true :=
      Bool.of_not_eq_false fun differs => full ⟨rfl, differs⟩
    refine Value.same_trans sameFirst ?_
    rw [Value.same_comm]
    exact value_gaveWay_self rearranged grown young (proper first List.mem_cons_self)
  · intro d different full name
    rw [grown.kept (fun here => absurd here different)]
    by_cases here : d = c
    · subst here
      have sameFirst : (mid.value d).same first = true := by
        rw [midValue]
        exact Bool.of_not_eq_false fun differs => full ⟨rfl, differs⟩
      rw [revalue, if_pos sameFirst]
      exact rearranged.others different name
    · rw [kept?_revalue_other here]
      exact rearranged.others different name
  · rintro d ⟨rfl, differs⟩
    refine ⟨rfl, fun name => ?_⟩
    rw [grown.kept (fun here => absurd here apart.symm), revalue, midValue, differs,
      if_neg Bool.false_ne_true, kept?_clear, if_pos rfl]
  · intro name target d keptBefore goes
    have keptMid : mid.kept? parent target = some d :=
      rearranged.entries.mpr ⟨name, keptBefore, goes⟩
    rw [keptOld, keptMid]
    -- The gap for the new elements is not a place that anything moves to.
    intro inGap
    obtain ⟨place, early, rfl⟩ := mem_gap.mp inGap
    rw [← SlotName.shifted_eq_spliced] at goes
    exact Action.shifted_ne_gap (by omega) (by omega) goes
  · intro target d keptAfter
    by_cases new : target ∈ (List.range' (index + 1) rest.length).map SlotName.index
    · obtain ⟨place, early, rfl⟩ := mem_gap.mp new
      rw [grown.keptNew (getElem?_gap early), size] at keptAfter
      cases keptAfter
      exact ⟨Or.inl (Nat.le_add_right _ _),
        agrees_gaveWay_new sound kept array agrees proper rearranged grown early⟩
    · rw [keptOld new] at keptAfter
      obtain ⟨name, keptBefore, goes⟩ := rearranged.entries.mp keptAfter
      exact ⟨Or.inr ⟨name, keptBefore⟩,
        agrees_gaveWay_old sound kept array agrees proper rearranged grown keptBefore goes⟩

end Values

/-- Replacing an element by values puts them into its place, and gives their cursors. -/
theorem replaceElement_cons_effect (proper : ∀ value ∈ first :: rest, value.isNaN = false)
    (fits : (ended (Action.replaceElement c parent (.index index) items (first :: rest)
      world)).store.Fits) :
    ∃ after, Action.replaceElement c parent (.index index) items (first :: rest) world =
        .ok (c :: List.range' world.cursors.size rest.length) after ∧
      Effect parent (· = c) (fun d => d = c ∧ (world.value c).same first = false)
        (SlotName.spliced (index + 1) 0 rest.length)
        (some (.array (splice index 1 (first :: rest) items))) world after ∧
      ∀ {position d}, (c :: List.range' world.cursors.size rest.length)[position]? = some d →
        after.kept? parent (.index (index + position)) = some d := by
  have inside := (agrees kept).inside array rfl
  rcases Action.replaceElement_cons ((agrees kept).inStep sound kept) array inside first rest with
    ⟨mid, rearranged, ⟨improper, _⟩ | ⟨_, after, result, grown⟩⟩ |
      ⟨after, position, d, result, store, _, _, keptThere, beyond⟩
  · rw [proper first List.mem_cons_self] at improper
    cases improper
  · rw [SlotName.shifted_eq_spliced] at rearranged
    have effect := gaveWay_effect sound kept array agrees proper rearranged grown
    refine ⟨after, result, effect, ?_⟩
    intro position d there
    cases position with
    | zero =>
      cases there
      refine effect.survives kept ?_
      rw [SlotName.spliced, if_pos (Nat.lt_succ_self index)]
      rfl
    | succ position =>
      rw [List.getElem?_cons_succ] at there
      obtain ⟨early, rfl⟩ := List.getElem?_eq_some_iff.mp there
      rw [List.length_range'] at early
      rw [grown.keptNew (getElem?_gap early), size_gaveWay rearranged, List.getElem_range',
        Nat.one_mul]
  · rw [result] at fits
    have bounded := not_beyond kept array agrees fits store keptThere
    rw [List.length_cons] at bounded
    omega

end Element

/-! ### Members that are replaced -/

section Member

variable {members : Assoc String Value} (sound : Sound world)
  (kept : world.kept? parent name = some c)
  (object : world.store.contents? (world.value parent) = some (.object members))
  (agrees : ∀ {name d}, world.kept? parent name = some d → Agrees world parent name d)

include sound kept object agrees

omit sound kept in
/-- A child that is kept for another key agrees with its slot as long as its member stays. -/
theorem agrees_member {written : Assoc String Value} (keptThere : world.kept? parent other = some d)
    (objectAfter : after.store.contents? (after.value parent) = some (.object written))
    (value : after.value d = world.value d)
    (stays : written.get? other.text = members.get? other.text) : Agrees after parent other d := by
  have known := agrees keptThere
  refine agrees_object objectAfter ((Store.normalName_object object other).symm.trans known.normal) ?_
  rw [stays, value, ← Store.slot_object object]
  exact known.same

omit sound in
/-- Different children of an object are kept for different keys. -/
theorem text_ne_of_kept (different : other ≠ name) (keptThere : world.kept? parent other = some d) :
    other.text ≠ name.text := by
  intro equal
  have normal := (agrees kept).normal
  have normalOther := (agrees keptThere).normal
  rw [Store.normalName_object object] at normal normalOther
  rw [equal, normal] at normalOther
  exact different normalOther.symm

/-- Removing a member. -/
theorem dropMember_effect :
    Effect parent (· = c) (· = c) (SlotName.without name some)
      (some (.object (members.erase name.text))) world (world.dropMember c parent name) := by
  obtain ⟨above, bears, _⟩ := sound.kept kept
  have written : (world.store.eraseMember (world.value parent) name.text).contents?
      (world.value parent) = some (.object (members.erase name.text)) :=
    Store.contents?_modifyMembers_self object _
  have rearranged := (((sound.withStore (world.store.eraseMember (world.value parent)
    name.text)).forget parent name).rearranged_refl parent).after_forget
  refine (Rearranged.effect rearranged sound written
    (fun different => Store.contents?_modifyMembers_other _ different _) ?_).clear
      (Nat.ne_of_lt (sound.lt_of_kept kept)) above ?_ .null
  · intro other target d keptThere goes
    unfold SlotName.without at goes
    split at goes
    · cases goes
    · rename_i different
      cases goes
      refine agrees_member object agrees keptThere
        (?_ : _ = some (Composite.object (members.erase name.text)))
        (rearranged.value d) ?_
      · rw [rearranged.store, rearranged.value]
        exact written
      · rw [Assoc.get?_erase, if_neg (text_ne_of_kept kept object agrees different keptThere)]
  · intro other keptStill
    obtain ⟨old, keptBefore, goes⟩ := rearranged.entries.mp keptStill
    obtain ⟨_, rfl⟩ := sound.kept_unique kept keptBefore
    rw [SlotName.without, if_pos rfl] at goes
    cases goes

/-- Overwriting a member. -/
theorem takeMember_effect {value : Value} (proper : value.isNaN = false) :
    Effect parent (· = c) (fun d => d = c ∧ (world.value c).same value = false) some
      (some (.object (members.insert name.text value))) world
      (world.takeMember c parent name value) := by
  obtain ⟨above, bears, young⟩ := sound.kept kept
  have older := Nat.ne_of_lt (sound.lt_of_kept kept)
  have written : (world.takeMember c parent name value).store.contents? (world.value parent) =
      some (.object (members.insert name.text value)) :=
    Store.contents?_modifyMembers_self object _
  have objectAfter : (world.takeMember c parent name value).store.contents?
      ((world.takeMember c parent name value).value parent) =
      some (.object (members.insert name.text value)) := by
    rw [value_takeMember_other _ _ _ _ _ older]
    exact written
  refine ⟨sound.takeMember c parent name value, ?_, ?_, written, ?_, ?_, ?_, ?_, ?_, ?_, ?_, ?_⟩
  · exact Nat.le_of_eq (size_takeMember ..).symm
  · intro d _
    exact above?_takeMember ..
  · intro other different
    exact Store.contents?_modifyMembers_other _ different _
  · intro d _ different
    exact value_takeMember_other _ _ _ _ _ different
  · rintro d rfl
    exact above
  · rintro d rfl full
    rw [value_takeMember_self _ _ _ _ _ young]
    exact Bool.of_not_eq_false fun differs => full ⟨rfl, differs⟩
  · intro d _ full other
    rw [kept?_takeMember, if_neg full]
  · rintro d emptied
    exact ⟨emptied.1, fun other => by rw [kept?_takeMember, if_pos emptied]⟩
  · intro other target d keptThere goes
    cases goes
    rw [kept?_takeMember, if_neg (fun both => older both.1)]
    exact keptThere
  · intro other d keptAfter
    rw [kept?_takeMember, if_neg (fun both => older both.1)] at keptAfter
    refine ⟨Or.inr ⟨other, keptAfter⟩, ?_⟩
    by_cases self : other = name
    · subst self
      have same : c = d := Option.some.inj (kept.symm.trans keptAfter)
      subst same
      refine agrees_object objectAfter
        ((Store.normalName_object object other).symm.trans (agrees kept).normal) ?_
      rw [Assoc.get?_insert_self, Option.getD_some, value_takeMember_self _ _ _ _ _ young]
      exact Value.same_self proper
    · refine agrees_member object agrees keptAfter objectAfter
        (value_takeMember_other _ _ _ _ _ ?_) ?_
      · rintro rfl
        exact self (sound.kept_unique keptAfter kept).2
      · rw [Assoc.get?_insert, if_neg (text_ne_of_kept kept object agrees self keptAfter)]

end Member

/-! ### New children -/

/-- A new child for a slot that nobody has asked for. -/
theorem addChild_effect (sound : Sound world) (inside : c < world.cursors.size)
    (agrees : ∀ {name d}, world.kept? c name = some d → Agrees world c name d)
    (normal : world.store.normalName (world.value c) name = name)
    (proper : (world.store.slot (world.value c) name).isNaN = false)
    (inRange : ∀ {items position}, world.store.contents? (world.value c) = some (.array items) →
      name = .index position → position < items.length) (unkept : world.kept? c name = none) :
    Effect c nobody nobody some (world.store.contents? (world.value c)) world
      (world.addChild c name (world.store.slot (world.value c) name)).2 := by
  have value {d : CursorId} (old : d < world.cursors.size) :
      (world.addChild c name (world.store.slot (world.value c) name)).2.value d =
        world.value d := by
    rw [value_addChild, if_neg (Nat.ne_of_lt old)]
  refine ⟨sound.addChild inside _ _, ?_, ?_, rfl, fun _ => rfl, fun old _ => value old, False.elim,
    False.elim, ?_, False.elim, ?_, ?_⟩
  · rw [size_addChild]
    exact Nat.le_succ _
  · intro d old
    rw [above?_addChild, if_neg (Nat.ne_of_lt old)]
  · intro d different _ other
    rw [kept?_addChild _ _ _ inside, if_neg (fun both => different both.1)]
  · intro other target d keptThere goes
    cases goes
    rw [kept?_addChild _ _ _ inside, if_neg]
    · exact keptThere
    · rintro ⟨_, rfl⟩
      rw [unkept] at keptThere
      cases keptThere
  · intro other d keptAfter
    rw [kept?_addChild _ _ _ inside] at keptAfter
    split at keptAfter
    · rename_i here
      cases keptAfter
      rw [here.2]
      refine ⟨Or.inl (Nat.le_refl _), ?_, ?_, ?_⟩
      · rw [value inside, value_addChild, if_pos rfl]
        exact Value.same_self proper
      · rw [value inside]
        exact normal
      · rw [value inside]
        exact fun array named => inRange array named
    · obtain ⟨_, _, old⟩ := sound.kept keptAfter
      refine ⟨Or.inr ⟨other, keptAfter⟩, (agrees keptAfter).congr ?_ (value old)⟩
      rw [value inside]
      rfl

/-- An effect is an effect also for a world that differs in views and handles only. -/
theorem Effect.of_alike {taken emptied : CursorId → Prop}
    (effect : Effect x taken emptied move new? before after) (alike : Alike world before)
    (kept : ∀ c name, before.kept? c name = world.kept? c name) :
    Effect x taken emptied move new? world after where
  sound := effect.sound
  size := by
    rw [← alike.size]
    exact effect.size
  above old := by
    rw [← alike.size] at old
    rw [← alike.above]
    exact effect.above old
  written := by
    rw [← alike.value]
    exact effect.written
  contents different := by
    rw [← alike.value] at different
    rw [← alike.store]
    exact effect.contents different
  value old untaken := by
    rw [← alike.size] at old
    rw [← alike.value]
    exact effect.value old untaken
  below took := by
    rw [← alike.above]
    exact effect.below took
  still took full := by
    rw [← alike.value]
    exact effect.still took full
  kept different full name := by
    rw [← kept]
    exact effect.kept different full name
  empty := effect.empty
  survives keptBefore goes := by
    rw [← kept] at keptBefore
    exact effect.survives keptBefore goes
  entries keptAfter := by
    obtain ⟨known, agrees⟩ := effect.entries keptAfter
    rw [← alike.size]
    simp only [← kept]
    exact ⟨known, agrees⟩

end World

end CodeTree
