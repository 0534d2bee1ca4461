/-
How operations end in a coherent world. An operation to a cursor that can be reached from the root
makes its edit, or it is refused and nothing changes but views. There is one exception: to
insert behind an element whose index is the last number that is an index. Such an element
stands in no array, and still the operation ends with a fault before anyone looks for the array.
-/

import CodeTree.Proofs.Effects
import CodeTree.Proofs.Operations

namespace CodeTree

/-! ### Contents -/

namespace SlotName

/-- Where the slots of a container go when what stands in one slot gives way to other values. -/
def replaced (count : Nat) : SlotName → SlotName → Option SlotName
  | index position => spliced position 1 count
  | key characters => without (key characters) some

/-- The name of the slot that lies a number of places further. Keys have no order. -/
def further (places : Nat) : SlotName → SlotName
  | index position => index (position + places)
  | key characters => key characters

theorem replaced_self (count : Nat) (name : SlotName) : name.replaced count name = none := by
  cases name with
  | index position => simp [replaced, spliced]
  | key characters => simp [replaced, without]

/-- Away from the slot itself, to give way to values is to make room behind the first of them. -/
theorem spliced_of_replaced {position count : Nat} {name target : SlotName}
    (goes : replaced (count + 1) (index position) name = some target) :
    spliced (position + 1) 0 count name = some target := by
  cases name with
  | key characters => exact goes
  | index place =>
    rw [replaced, spliced] at goes
    rw [spliced]
    split at goes
    · rw [if_pos (by omega)]
      exact goes
    · split at goes
      · cases goes
      · rw [if_neg (by omega), if_neg (by omega), ← goes]
        congr 2
        omega

end SlotName

section Contents

variable {store : Store} {part value : Value} {contents : Composite} {values : List Value}
  {name slot : SlotName}

namespace Composite

/-- What stands in a slot. -/
def inner? : Composite → SlotName → Option Value
  | array items, .index position => items[position]?
  | object members, .key characters => members.get? characters
  | _, _ => none

/-- Whether a container takes some values for a slot. -/
def Takes (slot : SlotName) (values : List Value) : Composite → Prop
  | array items => ∃ position, slot = .index position ∧ position < items.length
  | object _ => (∃ characters, slot = .key characters) ∧ values.length ≤ 1

/-- The contents after some values have taken the place of what stood in a slot. -/
def exchange : SlotName → List Value → Composite → Composite
  | .index position, values, array items => array (splice position 1 values items)
  | .key characters, [], object members => object (members.erase characters)
  | .key characters, value :: _, object members => object (members.insert characters value)
  | _, _, contents => contents

theorem inner?_exchange_further {position : Nat} (takes : contents.Takes slot values)
    (there : values[position]? = some part) :
    (contents.exchange slot values).inner? (slot.further position) = some part := by
  have early := (List.getElem?_eq_some_iff.mp there).1
  cases contents with
  | array items =>
    obtain ⟨index, rfl, inside⟩ := takes
    exact (getElem?_splice_added (Nat.le_of_lt inside) early).trans there
  | object members =>
    obtain ⟨⟨characters, rfl⟩, few⟩ := takes
    obtain rfl : position = 0 := by omega
    cases values with
    | nil => cases there
    | cons value rest => exact ((Assoc.get?_insert _ _ _ _).trans (if_pos rfl)).trans there

/-- What stands in a slot after the exchange has stood in one that stays, or has come. -/
theorem inner?_exchange (takes : contents.Takes slot values)
    (entry : (contents.exchange slot values).inner? name = some part) :
    (∃ old, contents.inner? old = some part ∧ slot.replaced values.length old = some name) ∨
      ∃ position, values[position]? = some part ∧ name = slot.further position := by
  cases contents with
  | array items =>
    obtain ⟨gap, rfl, inside⟩ := takes
    cases name with
    | key characters => cases entry
    | index position =>
      have entry : (splice gap 1 values items)[position]? = some part := entry
      rcases Nat.lt_or_ge position gap with front | behind
      · rw [getElem?_splice_front (Nat.le_of_lt inside) front] at entry
        exact .inl ⟨.index position, entry, if_pos front⟩
      · rcases Nat.lt_or_ge position (gap + values.length) with among | beyond
        · obtain ⟨place, rfl⟩ := Nat.exists_eq_add_of_le behind
          rw [getElem?_splice_added (Nat.le_of_lt inside) (by omega)] at entry
          exact .inr ⟨place, entry, rfl⟩
        · obtain ⟨place, rfl⟩ := Nat.exists_eq_add_of_le beyond
          have moved := @getElem?_splice_behind _ gap 1 values items (Nat.le_of_lt inside)
            (gap + 1 + place) (by omega)
          rw [show gap + 1 + place - 1 + values.length = gap + values.length + place by omega,
            entry] at moved
          refine .inl ⟨.index (gap + 1 + place), moved.symm, ?_⟩
          rw [SlotName.replaced, SlotName.spliced, if_neg (by omega), if_neg (by omega)]
          congr 2
          omega
  | object members =>
    obtain ⟨⟨characters, rfl⟩, few⟩ := takes
    cases name with
    | index position => cases values <;> cases entry
    | key other =>
      have stays (different : other ≠ characters) (present : members.get? other = some part) :
          ∃ old, (object members).inner? old = some part ∧
            (SlotName.key characters).replaced values.length old = some (.key other) :=
        ⟨.key other, present, if_neg fun same => different (SlotName.key.inj same)⟩
      cases values with
      | nil =>
        have entry : (members.erase characters).get? other = some part := entry
        rw [Assoc.get?_erase] at entry
        split at entry
        · cases entry
        · rename_i different
          exact .inl (stays different entry)
      | cons value rest =>
        have entry : (members.insert characters value).get? other = some part := entry
        rw [Assoc.get?_insert] at entry
        split at entry
        · rename_i same
          cases entry
          exact .inr ⟨0, rfl, by rw [same]; rfl⟩
        · rename_i different
          exact .inl (stays different entry)

end Composite

namespace Store

theorem inner?_of_contents (present : store.contents? value = some contents) (name : SlotName) :
    store.inner? value name = contents.inner? name := by
  cases contents <;> cases name <;> simp [inner?, present, Composite.inner?]

end Store

end Contents

variable {after world : World} {part : Value} {root c x : CursorId}
  {emptied taken : CursorId → Prop} {path : List SlotName} {added inserted items : List Value}
  {index removed start : Nat} {name : SlotName} {operation : Operation}

namespace Operation

/-- The elements that an edit of an array takes out: where they start, and how many they are. -/
def cut (length : Nat) : Operation → Nat × Nat
  | shift => (0, min 1 length)
  | push _ => (length, 0)
  | pop => (length - 1, min 1 length)
  | insertAt index _ => (min index length, 0)
  | _ => (0, 0)

/-- The answer to an edit of an array. -/
def reply (items : List Value) : Operation → Answer
  | shift => .value items.head?
  | unshift values => .count (values.length + items.length)
  | push values => .count (items.length + values.length)
  | pop => .value items.getLast?
  | _ => .done

end Operation

namespace World

variable {members : Assoc String Value} {move : SlotName → Option SlotName}

/-- An edit through the cursor `x` of an array: it is answered, its elements are spliced, and the
kept children move with them. -/
def EditsArray {α : Type} (world : World) (x : CursorId)
    (outcome : EStateM.Result (Halt EditError) World α) (answer : α) (items : List Value)
    (start removed : Nat) (added : List Value) : Prop :=
  ∃ after, outcome = .ok answer after ∧
    Effect x nobody nobody (SlotName.spliced start removed added.length)
      (some (.array (splice start removed added items))) world after

/-- Asking for a slot. -/
theorem child_effect {parent : CursorId} (sound : Sound world)
    (agrees : ∀ {name d}, world.kept? parent name = some d → Agrees world parent name d)
    (inside : parent < world.cursors.size)
    (proper : (world.store.slot (world.value parent) name).isNaN = false)
    (inRange : ∀ {items position}, world.store.contents? (world.value parent) =
      some (.array items) → name = .index position → position < items.length) :
    Effect parent nobody nobody some (world.store.contents? (world.value parent)) world
        (world.child parent name).2 ∧
      (world.child parent name).2.kept? parent
        (world.store.normalName (world.value parent) name) = some (world.child parent name).1 := by
  rcases world.child_cases parent name with ⟨kept, keptThere, _, result⟩ | ⟨stale, result⟩
  · rw [result]
    exact ⟨Effect.none sound agrees fun goes => (Option.some.inj goes).symm, keptThere⟩
  · have normal := world.store.normalName_normalName (world.value parent) name
    -- A kept child would agree with the slot, and would have been found.
    have unkept : world.kept? parent (world.store.normalName (world.value parent) name) = none := by
      refine Option.eq_none_iff_forall_ne_some.mpr fun kept keptThere => ?_
      have differs := stale kept keptThere
      rw [Value.same_comm, (agrees keptThere).same] at differs
      cases differs
    rw [result]
    constructor
    · refine addChild_effect sound inside agrees normal ?_ ?_ unkept
      · rw [Store.slot_normalName]
        exact proper
      · intro items position array named
        exact inRange array (by rw [← named, Store.normalName_array array])
    · rw [kept?_addChild _ _ _ inside, if_pos ⟨rfl, rfl⟩]
      rfl

namespace Coherent

variable (coherent : Coherent root world)

include coherent

/-! ### Edits of an array -/

section Array

variable (leads : world.follow? root path = some c)
  (array : world.store.contents? (world.value c) = some (.array items))

include leads array

/-- The kept elements of an array are elements that the array has. -/
theorem tight {position : Nat} {d : CursorId} (kept : world.kept? c (.index position) = some d) :
    position < items.length :=
  (coherent.agrees leads kept).inside array rfl

theorem editsArray_run (edit : operation.editsArray = true)
    (fits : (ended (operation.run c world)).store.Fits) :
    EditsArray world c (operation.run c world) (operation.reply items) items
      (operation.cut items.length).1 (operation.cut items.length).2 operation.inserted := by
  have sound := coherent.sound
  have inside := sound.lt_size_of_follow coherent.present leads
  have edits {α : Type} {action : Action α} {answer : α} {start removed : Nat} {added : List Value}
      (wrap : α → Operation.Answer) (within : start ≤ items.length)
      (ends : ∃ after, action world = .ok answer after ∧
        Spliced c items start removed added world after) :
      EditsArray world c ((wrap <$> action) world) (wrap answer) items start removed added := by
    obtain ⟨after, result, spliced⟩ := ends
    refine ⟨after, ?_, spliced.effect sound array (coherent.agrees leads) within⟩
    rw [Action.run_map, result]
  cases operation with
  | shift =>
    rw [Operation.run, ended_map] at fits
    exact edits _ (Nat.zero_le _)
      (Action.shift_spliced sound inside array (coherent.tight leads array) fits)
  | unshift values =>
    rw [Operation.run, ended_map] at fits
    exact edits _ (Nat.zero_le _)
      (Action.unshift_spliced sound inside array (coherent.tight leads array) values fits)
  | push values =>
    exact edits _ (Nat.le_refl _)
      (Action.push_spliced sound array (coherent.tight leads array) values)
  | pop =>
    exact edits _ (Nat.sub_le _ _) (Action.pop_spliced sound array (coherent.tight leads array))
  | insertAt index values =>
    rw [Operation.run, ended_map] at fits
    by_cases nothing : values = []
    · subst nothing
      refine ⟨world, ?_, ?_⟩
      · rw [Operation.run, Action.run_map, Action.insertAt_nil (Store.items?_eq_some.mpr array)]
        rfl
      · rw [Operation.cut, Operation.inserted, splice_nothing, ← array]
        exact Effect.none sound (coherent.agrees leads) SlotName.eq_of_spliced_nothing
    · exact edits _ (Nat.min_le_right _ _)
        (Action.insertAt_spliced sound inside array (coherent.tight leads array) index nothing fits)
  | _ => cases edit

end Array

/-! ### Navigation -/

/-- Asking for a slot leaves the world coherent, if an index into an array is one it has. -/
theorem child (leads : world.follow? root path = some c)
    (inRange : ∀ {items position}, world.store.contents? (world.value c) = some (.array items) →
      name = .index position → position < items.length) :
    Coherent root (world.child c name).2 ∧
      (world.child c name).2.follow? root
        (path ++ [world.store.normalName (world.value c) name]) = some (world.child c name).1 := by
  have inside := coherent.sound.lt_size_of_follow coherent.present leads
  obtain ⟨effect, kept⟩ := child_effect coherent.sound (coherent.agrees leads) inside
    (coherent.slot_proper leads name) inRange
  refine ⟨effect.coherent_after coherent leads ?_ ?_, follow?_concat.mpr ⟨c, ?_, kept⟩⟩
  · rw [store_child, effect.value coherent.present id]
    exact coherent.unshared
  · rw [store_child, effect.value coherent.present id]
    exact coherent.free
  · exact effect.follow_moved coherent.sound leads leads (SlotName.movePath_self _ _)
      fun _ _ empty => empty.elim

end Coherent

/-- Every index into an array on the way through some names is one that the array has. -/
def InRange (world : World) (c : CursorId) : List SlotName → Prop
  | [] => True
  | name :: rest =>
    (∀ {items position}, world.store.contents? (world.value c) = some (.array items) →
      name = .index position → position < items.length) ∧
    InRange (world.child c name).2 (world.child c name).1 rest

theorem Coherent.descend (coherent : Coherent root world) (leads : world.follow? root path = some c)
    {names : List SlotName} (inRange : InRange world c names) :
    Coherent root (world.descend c names).2 := by
  induction names generalizing world path c with
  | nil => exact coherent
  | cons name rest ih =>
    obtain ⟨first, later⟩ := inRange
    obtain ⟨coherentChild, toChild⟩ := coherent.child leads first
    exact ih coherentChild toChild later

/-! ### Replacements -/

/-- The cursors that stand for values in the place of what a cursor stood for: the cursor itself,
and new ones. -/
def successors (world : World) (c : CursorId) : List Value → List CursorId
  | [] => []
  | _ :: rest => c :: List.range' world.cursors.size rest.length

theorem length_successors (world : World) (c : CursorId) (values : List Value) :
    (world.successors c values).length = values.length := by
  cases values with
  | nil => rfl
  | cons first rest => rw [successors, List.length_cons, List.length_range', List.length_cons]

/-- The cursor that lets go of its children when values take the place of what it stood for, unless
the first of them is just that. -/
def emptying (world : World) (c : CursorId) : List Value → CursorId → Prop
  | [] => (· = c)
  | first :: _ => fun d => d = c ∧ (world.value c).same first = false

/-- Values have taken the place of what stood in the slot of a cursor `c` below a cursor `parent`. -/
structure Supplants (c parent : CursorId) (slot : SlotName) (values : List Value)
    (contents : Composite) (world after : World) : Prop where
  effect : ∃ moves, Effect parent (· = c) (world.emptying c values) moves
      (some (contents.exchange slot values)) world after ∧
    (∀ {name target}, slot.replaced values.length name = some target →
      moves name = some target) ∧ (values ≠ [] → moves slot = some slot)
  places : ∀ {position d}, (world.successors c values)[position]? = some d →
    after.kept? parent (slot.further position) = some d
  nulled : values = [] → (∃ characters, slot = .key characters) → after.value c = .null

/-- An object refuses only several values at once. -/
theorem Agrees.many {parent : CursorId} {values : List Value} (agrees : Agrees world parent name c)
    (object : world.store.contents? (world.value parent) = some (.object members))
    (refuses : ¬(Composite.object members).Takes name values) :
    ∃ first second rest, values = first :: second :: rest := by
  have normal := agrees.normal
  rw [Store.normalName_object object] at normal
  match values, Nat.lt_of_not_le fun few => refuses ⟨⟨_, normal.symm⟩, few⟩ with
  | first :: second :: rest, _ => exact ⟨first, second, rest, rfl⟩

section Replacements

variable {parent : CursorId} (sound : Sound world)
  (agrees : ∀ {name d}, world.kept? parent name = some d → Agrees world parent name d)
  (kept : world.kept? parent name = some c) (alive : world.isAlive parent = true)

include agrees

theorem agrees_withoutViews (c : CursorId) {name : SlotName} {d : CursorId}
    (kept : (world.withoutViews c).kept? parent name = some d) :
    Agrees (world.withoutViews c) parent name d := by
  rw [kept?_withoutViews] at kept
  exact (agrees kept).congr (contents?_withoutViews world c parent)
    ((alike_withoutViews world c).value d)

include sound kept alive

omit alive in
/-- A kept cursor that agrees with its slot is in step with its parent already. -/
theorem inStep_withoutViews : InStep (world.withoutViews c) c parent name := by
  have keptStill := (kept?_withoutViews world c parent name).trans kept
  exact (agrees_withoutViews agrees c keptStill).inStep (sound.withoutViews c) keptStill

theorem replace_inStep (values : List Value) :
    Action.replace c values world =
      Action.replaceInStep c parent values (world.withoutViews c) := by
  have inStep := inStep_withoutViews sound agrees kept
  have repaired : Action.repair c parent (world.withoutViews c) =
      .ok () (world.withoutViews c) := by
    rw [Action.repair_agrees inStep.sound inStep.above inStep.named inStep.agrees inStep.normal,
      keep_of_kept? inStep.kept]
  rw [Action.replace_of_some (parent?_of_above? (sound.kept kept).1 alive), repaired]

/-- An element is replaced in its array. -/
theorem replace_element (named : name = .index index)
    (array : world.store.contents? (world.value parent) = some (.array items)) (values : List Value) :
    Action.replace c values world =
      Action.replaceElement c parent (.index index) items values (world.withoutViews c) := by
  rw [replace_inStep sound agrees kept alive values, ← named]
  exact Action.replaceInStep_array (inStep_withoutViews sound agrees kept).named
    ((contents?_withoutViews world c parent).trans array) values

/-- A member is replaced in its object. -/
theorem replace_member
    (object : world.store.contents? (world.value parent) = some (.object members))
    (values : List Value) :
    Action.replace c values world =
      Action.replaceMember c parent name values (world.withoutViews c) := by
  rw [replace_inStep sound agrees kept alive values]
  exact Action.replaceInStep_object (inStep_withoutViews sound agrees kept).named
    ((contents?_withoutViews world c parent).trans object) values

/-- Values that a container takes for the slot of a cursor are answered with cursors, and take the
place of what stood there. -/
theorem replace_supplants {contents : Composite} {values : List Value}
    (present : world.store.contents? (world.value parent) = some contents)
    (takes : contents.Takes name values) (proper : ∀ value ∈ values, value.isNaN = false)
    (fits : ∀ {items}, contents = .array items → (ended
    (Action.replace c values world)).store.Fits) :
    ∃ after, Action.replace c values world = .ok (world.successors c values) after ∧
      Supplants c parent name values contents world after := by
  have alike := alike_withoutViews world c
  have keptStill := kept?_withoutViews world c
  have soundStill := sound.withoutViews c
  have keptThere := (keptStill parent name).trans kept
  have presentStill := (contents?_withoutViews world c parent).trans present
  cases contents with
  | object members =>
    obtain ⟨⟨characters, rfl⟩, few⟩ := takes
    rw [replace_member sound agrees kept alive present]
    cases values with
    | nil =>
      have effect := dropMember_effect soundStill keptThere presentStill
        (agrees_withoutViews agrees c)
      exact ⟨_, Action.replaceMember_nil _, ⟨_, effect.of_alike alike keptStill, id, absurd rfl⟩,
        nofun, fun _ _ => value_dropMember_self _ _ _ (alike.size ▸ (sound.kept kept).2.2)⟩
    | cons value more =>
      obtain rfl : more = [] :=
        List.length_eq_zero_iff.mp (Nat.le_zero.mp (Nat.le_of_succ_le_succ few))
      have effect := takeMember_effect soundStill keptThere presentStill
        (agrees_withoutViews agrees c) (proper value List.mem_cons_self)
      rw [alike.value] at effect
      have effect := effect.of_alike alike keptStill
      refine ⟨_, Action.replaceMember_single _ value, ⟨_, effect,
        fun goes => (SlotName.without_eq_some.mp goes).2, fun _ => rfl⟩, ?_, nofun⟩
      intro position d there
      obtain ⟨inside, rfl⟩ := List.getElem?_eq_some_iff.mp there
      obtain rfl : position = 0 := Nat.lt_one_iff.mp inside
      exact effect.survives kept rfl
  | array items =>
    obtain ⟨index, rfl, _⟩ := takes
    have fits : (ended (Action.replace c values world)).store.Fits := fits rfl
    rw [replace_element sound agrees kept alive rfl present] at fits ⊢
    cases values with
    | nil =>
      obtain ⟨after, result, effect⟩ := replaceElement_nil_effect soundStill keptThere presentStill
        (agrees_withoutViews agrees c) fits
      exact ⟨after, result, ⟨_, effect.of_alike alike keptStill, id, absurd rfl⟩, nofun,
        fun _ keyed => keyed.elim nofun⟩
    | cons first rest =>
      obtain ⟨after, result, effect, results⟩ := replaceElement_cons_effect soundStill keptThere
        presentStill (agrees_withoutViews agrees c) proper fits
      rw [alike.size] at result results
      rw [alike.value] at effect
      exact ⟨after, result, ⟨_, effect.of_alike alike keptStill, SlotName.spliced_of_replaced,
        fun _ => if_pos (Nat.lt_succ_self index)⟩, results, nofun⟩

/-- Where nothing can be replaced, the operation is refused, and only views are lost. -/
theorem replace_refused {values : List Value}
    (refuses : ∀ {contents}, world.store.contents? (world.value parent) = some contents →
      ¬contents.Takes name values) :
    ∃ cause, Action.replace c values world = .error (.error cause) (world.withoutViews c) := by
  have named := (inStep_withoutViews sound agrees kept).named
  cases present : world.store.contents? (world.value parent) with
  | none =>
    rw [replace_inStep sound agrees kept alive]
    exact ⟨_, Action.replaceInStep_plain named
      ((contents?_withoutViews world c parent).trans present) values⟩
  | some contents =>
    have refused := refuses present
    cases contents with
    | object members =>
      obtain ⟨first, second, rest, rfl⟩ := (agrees kept).many present refused
      rw [replace_member sound agrees kept alive present]
      exact ⟨_, Action.replaceMember_many name first second rest⟩
    | array items =>
      cases name with
      | index position => exact absurd ⟨position, rfl, (agrees kept).inside present rfl⟩ refused
      | key characters =>
        rw [replace_inStep sound agrees kept alive]
        exact ⟨_, (Action.replaceInStep_array named
          ((contents?_withoutViews world c parent).trans present) values).trans
          (Action.replaceElement_key characters items values)⟩

end Replacements

/-! ### Every operation -/

/-- How an operation ends: with an edit, which brings in nothing but the given values, or with a
refusal. -/
inductive Responds {α : Type} (root : CursorId) (world : World) (inserted : List Value) :
    EStateM.Result (Halt EditError) World α → Prop where
  | edited {x : CursorId} {toX : List SlotName} {taken emptied : CursorId → Prop}
      {move : SlotName → Option SlotName} {new? : Option Composite} {answer : α} {after : World} :
      world.follow? root toX = some x →
      Effect x taken emptied move new? world after →
      (∀ {name part}, after.store.inner? (world.value x) name = some part →
        part ∈ inserted ∨ ∃ old, world.store.inner? (world.value x) old = some part) →
      Responds root world inserted (.ok answer after)
  | refused {cause : EditError} {after : World} :
      Alike world after → Sound after →
      (∀ c name, after.kept? c name = world.kept? c name) →
      Responds root world inserted (.error (.error cause) after)

namespace Responds

variable {α β : Type}

theorem map {action : Action α} (change : α → β)
    (responds : Responds root world inserted (action world)) :
    Responds root world inserted ((change <$> action) world) := by
  rw [Action.run_map]
  cases outcome : action world with
  | ok answer after =>
    rw [outcome] at responds
    cases responds with
    | edited reachable effect known => exact .edited reachable effect known
  | error halt after =>
    rw [outcome] at responds
    cases responds with
    | refused alike sound kept => exact .refused alike sound kept

/-- A refusal that changes nothing at all. -/
theorem unchanged (sound : Sound world) (cause : EditError) :
    Responds root world inserted (.error (.error cause) world : EStateM.Result _ _ α) :=
  .refused (Alike.refl world) sound fun _ _ => rfl

section Ends

variable {outcome : EStateM.Result (Halt EditError) World α}
  (responds : Responds root world inserted outcome)

include responds

theorem ends :
    (∃ answer after, outcome = .ok answer after) ∨
      ∃ cause after, outcome = .error (.error cause) after := by
  cases responds with
  | edited => exact Or.inl ⟨_, _, rfl⟩
  | refused => exact Or.inr ⟨_, _, rfl⟩

/-- Operations leave a coherent world coherent, as long as the tree stays unshared. -/
theorem coherent (coherent : Coherent root world)
    (free : ∀ value ∈ inserted, world.store.NaNFree value)
    (unshared : (ended outcome).store.Unshared ((ended outcome).value root)) :
    Coherent root (ended outcome) := by
  cases responds with
  | refused alike sound kept => exact coherent.of_alike alike sound kept
  | edited reachable effect known =>
    refine effect.coherent_after coherent reachable unshared ?_
    -- The root has no parent, and so it takes no other value.
    have sameRoot := effect.value coherent.present fun took => by
      have above := effect.below took
      rw [coherent.top] at above
      cases above
    show Store.NaNFree _ (World.value _ root)
    rw [sameRoot]
    refine Store.NaNFree.of_write effect.contents ?_
      (List.mem_cons_self : world.value root ∈ world.value root :: inserted) ?_
    · exact fun entry => (known entry).imp_left (List.mem_cons_of_mem _)
    · intro source member
      rcases List.mem_cons.mp member with rfl | new
      · exact coherent.free
      · exact free source new

end Ends

end Responds

/-- An effect that splices brings in nothing but the added values. -/
theorem Effect.known_of_items
    (effect : Effect x taken emptied move (some (.array (splice start removed added items)))
      world after) (array : world.store.contents? (world.value x) = some (.array items))
    (entry : after.store.inner? (world.value x) name = some part) :
    part ∈ added ∨ ∃ old, world.store.inner? (world.value x) old = some part := by
  cases name with
  | key characters => simp [Store.inner?, effect.written] at entry
  | index position =>
    rw [Store.inner?_array effect.written] at entry
    exact (mem_of_mem_splice (List.mem_of_getElem? entry)).imp_right fun old =>
      Store.exists_name_of_mem array old

theorem EditsArray.responds {α : Type} {toX : List SlotName}
    {outcome : EStateM.Result (Halt EditError) World α} {answer : α}
    (reachable : world.follow? root toX = some x)
    (array : world.store.contents? (world.value x) = some (.array items))
    (edits : EditsArray world x outcome answer items start removed added) :
    Responds root world added outcome := by
  obtain ⟨after, rfl, effect⟩ := edits
  exact .edited reachable effect fun entry => effect.known_of_items array entry

namespace Coherent

variable (coherent : Coherent root world) (leads : world.follow? root path = some c)

include coherent leads

theorem responds_edit (edit : operation.editsArray = true)
    (fits : (ended (operation.run c world)).store.Fits) :
    Responds root world operation.inserted (operation.run c world) := by
  cases array : world.store.items? (world.value c) with
  | none =>
    rw [operation.run_of_none edit array]
    exact .unchanged coherent.sound _
  | some items =>
    rw [Store.items?_eq_some] at array
    exact (coherent.editsArray_run leads array edit fits).responds leads array

/-! ### Operations to the cursor of a slot -/

variable (held : c ∈ world.held)

include held

/-- A reachable cursor that is held is the root, or it is kept by a living parent. -/
theorem root_or_child : (c = root ∧ path = [] ∧ world.parent? c = none) ∨
    ∃ front parent name, path = front ++ [name] ∧ world.follow? root front = some parent ∧
      world.kept? parent name = some c ∧ world.isAlive parent = true ∧
      world.parent? c = some parent ∧ world.name? c = some name := by
  have alive := coherent.sound.isAlive_root coherent.top coherent.present leads (Or.inr held)
  rcases List.eq_nil_or_concat path with rfl | ⟨front, name, rfl⟩
  · cases leads
    refine Or.inl ⟨rfl, rfl, ?_⟩
    have absent : (world.cursor root).parent? = none := coherent.top
    rw [parent?, absent]
  · rw [List.concat_eq_append] at leads ⊢
    obtain ⟨parent, toParent, kept⟩ := follow?_concat.mp leads
    have aliveParent := coherent.sound.isAlive_of_follow alive toParent
    obtain ⟨above, bears, _⟩ := coherent.sound.kept kept
    exact Or.inr ⟨front, parent, name, rfl, toParent, kept, aliveParent,
      parent?_of_above? above aliveParent, bears⟩

/-- Only an element has a place to insert beside it. -/
theorem placeInArray_cases : (path.getLast?.bind SlotName.index? = none ∧
      ∃ x cause, world.follow? root path.dropLast = some x ∧
        Action.placeInArray c world = .error (.error cause) world) ∨
    ∃ front parent index, path = front ++ [.index index] ∧
      world.follow? root front = some parent ∧ world.kept? parent (.index index) = some c ∧
      Action.placeInArray c world = .ok (parent, index) world := by
  rw [Action.run_placeInArray]
  rcases coherent.root_or_child leads held with
    ⟨rfl, rfl, orphan⟩ | ⟨front, parent, name, rfl, toParent, kept, _, living, bears⟩
  · rw [orphan]
    exact Or.inl ⟨rfl, c, _, rfl, rfl⟩
  · rw [living, bears, List.getLast?_concat, List.dropLast_concat]
    cases name with
    | key characters => exact Or.inl ⟨rfl, parent, _, toParent, rfl⟩
    | index index => exact Or.inr ⟨front, parent, index, rfl, toParent, kept, rfl⟩

theorem responds_insertBefore {values : List Value}
    (fits : (ended ((Operation.insertBefore values).run c world)).store.Fits) :
    Responds root world values ((Operation.insertBefore values).run c world) := by
  rw [Operation.run_insertBefore] at fits ⊢
  rcases coherent.placeInArray_cases leads held with
    ⟨_, _, cause, _, result⟩ | ⟨_, _, _, _, toParent, _, result⟩ <;> rw [result] at fits ⊢
  · exact .unchanged coherent.sound cause
  · exact coherent.responds_edit toParent rfl fits

/-- Inserting behind an element is the one operation that can end with a fault. -/
theorem responds_insertAfter {values : List Value}
    (fits : (ended ((Operation.insertAfter values).run c world)).store.Fits) :
    Responds root world values ((Operation.insertAfter values).run c world) ∨
      ∃ index, world.name? c = some (.index index) ∧ indexBound ≤ index + 1 ∧
        (Operation.insertAfter values).run c world = .error (.fault .additionRange) world := by
  rw [Operation.run_insertAfter] at fits ⊢
  rcases coherent.placeInArray_cases leads held with
    ⟨_, _, cause, _, result⟩ | ⟨_, _, index, _, toParent, kept, result⟩ <;> rw [result] at fits ⊢
  · exact Or.inl (.unchanged coherent.sound cause)
  · dsimp only at fits ⊢
    by_cases small : index + 1 < indexBound
    · rw [if_pos small] at fits ⊢
      exact Or.inl (coherent.responds_edit toParent rfl fits)
    · rw [if_neg small]
      exact Or.inr ⟨index, (coherent.sound.kept kept).2.1, Nat.le_of_not_lt small, rfl⟩

theorem responds_replace {values : List Value} (proper : ∀ value ∈ values, value.isNaN = false)
    (fits : (ended (Action.replace c values world)).store.Fits) :
    Responds root world values (Action.replace c values world) := by
  rcases coherent.root_or_child leads held with
    ⟨_, _, orphan⟩ | ⟨front, parent, name, rfl, toParent, kept, alive, living, bears⟩
  · rw [Action.replace_of_none orphan]
    exact .unchanged coherent.sound _
  · have agrees {name d} := @Coherent.agrees _ _ coherent _ _ name d toParent
    by_cases taken : ∃ contents, world.store.contents? (world.value parent) = some contents ∧
        contents.Takes name values
    · obtain ⟨contents, present, takes⟩ := taken
      obtain ⟨after, result, supplants⟩ := replace_supplants coherent.sound agrees kept alive
        present takes proper fun _ => fits
      obtain ⟨_, effect, _⟩ := supplants.effect
      rw [result]
      refine .edited toParent effect fun entry => ?_
      rw [Store.inner?_of_contents effect.written] at entry
      rcases Composite.inner?_exchange takes entry with ⟨old, stood, _⟩ | ⟨_, came, _⟩
      · exact .inr ⟨old, (Store.inner?_of_contents present old).trans stood⟩
      · exact .inl (List.mem_of_getElem? came)
    · obtain ⟨cause, result⟩ := replace_refused coherent.sound agrees kept alive
        fun present takes => taken ⟨_, present, takes⟩
      rw [result]
      exact .refused (alike_withoutViews world c) (coherent.sound.withoutViews c)
        (kept?_withoutViews world c)

end Coherent

end World

end CodeTree
