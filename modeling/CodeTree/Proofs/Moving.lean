/-
Kept element cursors follow their elements. After an edit of an array the kept children of its
cursor are rearranged: each either moves to the new name of its slot, and bears that name from
then on, or is dropped and keeps the name it had.

The edits move children one after another. That the order does not matter, and that no child
is ever put where another one stands, is what this file is about.
-/

import CodeTree.Proofs.Forgotten
import CodeTree.Proofs.Running

namespace CodeTree

variable {element : Nat × CursorId} {elements : List (Nat × CursorId)} {d : CursorId}
  {name : SlotName}

variable {world : World} {parent : CursorId} {offset : Int} {position start : Nat}

namespace SlotName

/-- Where a slot goes when the elements from an index on move by an offset. -/
def slide (start : Nat) (offset : Int) : SlotName → SlotName
  | index position => index (if start ≤ position then (position + offset).toNat else position)
  | key characters => key characters

/-- Gives up one slot, and moves the others. -/
def without (gone : SlotName) (move : SlotName → Option SlotName) (name : SlotName) :
    Option SlotName :=
  if name = gone then none else move name

theorem without_eq_some {gone name target : SlotName} {move : SlotName → Option SlotName} :
    without gone move name = some target ↔ name ≠ gone ∧ move name = some target := by
  unfold without
  split <;> simp_all

/-- Where the slots of an array go when the elements from an index on move by an offset. The slot
of the length is given up. -/
def shifted (start : Nat) (offset : Int) : SlotName → Option SlotName :=
  without length (fun name => some (name.slide start offset))

theorem index_ne_length (position : Nat) : index position ≠ length := nofun

theorem key_ne_index (characters : String) (position : Nat) :
    key characters ≠ index position := nofun

theorem slide_zero (start : Nat) (name : SlotName) : name.slide start 0 = name := by
  cases name with
  | index position => simp [slide]
  | key characters => rfl

/-- A slot in front of an index: that of an element before it, or one that is no element's. -/
def InFront (start : Nat) (name : SlotName) : Prop :=
  ∀ position, name = index position → position < start

theorem inFront_or_behind (start : Nat) (name : SlotName) :
    name.InFront start ∨ ∃ position, name = index position ∧ start ≤ position := by
  cases name with
  | key characters => exact Or.inl nofun
  | index position =>
    rcases Nat.lt_or_ge position start with near | far
    · exact Or.inl fun _ equal => index.inj equal ▸ near
    · exact Or.inr ⟨position, rfl, far⟩

theorem slide_of_inFront (front : name.InFront start) (offset : Int) :
    name.slide start offset = name := by
  cases name with
  | key characters => rfl
  | index position => rw [slide, if_neg (Nat.not_le_of_lt (front position rfl))]

end SlotName

namespace World

/-! ### Rearranged children -/

/-- The children that one cursor keeps are rearranged: what was kept under a name is kept under
the name it moves to, and what moves nowhere is no longer kept. -/
structure Rearranged (move : SlotName → Option SlotName) (parent : CursorId)
    (before after : World) : Prop extends Alike before after where
  others : ∀ {c}, c ≠ parent → ∀ name, after.kept? c name = before.kept? c name
  entries : ∀ {target d}, after.kept? parent target = some d ↔
    ∃ name, before.kept? parent name = some d ∧ move name = some target
  moved : ∀ {name target d}, before.kept? parent name = some d → move name = some target →
    after.name? d = some target
  stays : ∀ {d}, (∀ name, before.kept? parent name = some d → move name = none) →
    after.name? d = before.name? d

namespace Rearranged

variable {move : SlotName → Option SlotName} {before after : World}

theorem sound (rearranged : Rearranged move parent before after) (sound : Sound before) :
    Sound after := by
  refine sound.of_alike rearranged.toAlike ?_ ?_
  · intro d
    by_cases dropped : ∀ name, before.kept? parent name = some d → move name = none
    · rw [rearranged.stays dropped]
    · simp only [Classical.not_forall] at dropped
      obtain ⟨name, kept, survives⟩ := dropped
      obtain ⟨target, goes⟩ := Option.ne_none_iff_exists'.mp survives
      rw [rearranged.moved kept goes, (sound.kept kept).2.1]
      rfl
  · intro holder name d kept
    by_cases same : holder = parent
    · subst same
      obtain ⟨old, oldKept, goes⟩ := rearranged.entries.mp kept
      exact ⟨(sound.kept oldKept).1, rearranged.moved oldKept goes⟩
    · rw [rearranged.others same] at kept
      have facts := sound.kept kept
      refine ⟨facts.1, ?_⟩
      rw [rearranged.stays, facts.2.1]
      intro other alsoKept
      exact absurd (sound.kept_unique kept alsoKept).1 same

/-- A rearrangement moves only what is kept. -/
theorem leaves (rearranged : Rearranged move parent before after) {c : CursorId}
    (forgotten : before.Forgotten c) : Leaves c before after := by
  refine forgotten.of_alike rearranged.toAlike ?_ ?_
  · exact rearranged.stays fun name kept => absurd kept (forgotten.unkept parent name)
  · intro holder name kept
    by_cases same : holder = parent
    · subst same
      obtain ⟨old, oldKept, _⟩ := rearranged.entries.mp kept
      exact ⟨holder, old, oldKept⟩
    · rw [rearranged.others same] at kept
      exact ⟨holder, name, kept⟩

/-- What is forgotten first takes no part in the rearrangement. -/
theorem after_forget {gone : SlotName}
    (rearranged : Rearranged move parent (before.forget parent gone) after) :
    Rearranged (SlotName.without gone move) parent before after where
  toAlike := (alike_forget before parent gone).trans rearranged.toAlike
  others {c} different name := by
    rw [rearranged.others different, kept?_forget, if_neg (fun both => different both.1)]
  entries {target d} := by
    rw [rearranged.entries]
    simp only [kept?_forget_self, SlotName.without_eq_some, and_left_comm, and_assoc]
  moved {name target d} kept goes := by
    rw [SlotName.without_eq_some] at goes
    exact rearranged.moved (kept?_forget_self.mpr ⟨goes.1, kept⟩) goes.2
  stays {d} dropped := by
    rw [rearranged.stays, name?_forget]
    intro name kept
    rw [kept?_forget_self] at kept
    have goes := dropped name kept.2
    rwa [SlotName.without, if_neg kept.1] at goes

end Rearranged

theorem Sound.rearranged_refl (sound : Sound world) (parent : CursorId) :
    Rearranged some parent world world where
  toAlike := Alike.refl world
  others _ _ := rfl
  entries := by simp
  moved {name target d} kept goes := by
    cases goes
    exact (sound.kept kept).2.1
  stays _ := rfl

/-! ### Moving one child after another -/

/-- The name that a child moves to. -/
def target (offset : Int) (element : Nat × CursorId) : SlotName :=
  .index (element.1 + offset).toNat

/-- The world after one child has moved. -/
def place (parent : CursorId) (offset : Int) (world : World) (element : Nat × CursorId) : World :=
  (world.rename element.2 (target offset element)).keep parent (target offset element) element.2

section Place

theorem alike_place (world : World) (element : Nat × CursorId) :
    Alike world (world.place parent offset element) :=
  (alike_rename world _ _).trans (alike_keep _ _ _ _)

theorem kept?_place (inside : parent < world.cursors.size) (element : Nat × CursorId) (d : CursorId)
    (name : SlotName) :
    (world.place parent offset element).kept? d name =
      if d = parent ∧ name = target offset element then some element.2
      else world.kept? d name := by
  have renamed : parent < (world.rename element.2 (target offset element)).cursors.size := by
    rw [(alike_rename world _ _).size]
    exact inside
  rw [place, kept?_keep _ renamed, kept?_rename]

theorem name?_place_self (inside : element.2 < world.cursors.size) :
    (world.place parent offset element).name? element.2 = some (target offset element) := by
  rw [place, name?_keep, name?_rename_self world inside]

theorem name?_place_other (different : d ≠ element.2) :
    (world.place parent offset element).name? d = world.name? d := by
  rw [place, name?_keep, name?_rename_other world different]

theorem alike_places (elements : List (Nat × CursorId)) (world : World) :
    Alike world (elements.foldl (place parent offset) world) := by
  induction elements generalizing world with
  | nil => exact Alike.refl world
  | cons element rest ih =>
    exact (alike_place world element).trans (ih _)

theorem kept?_places_other (inside : parent < world.cursors.size)
    (apart : d = parent → ∀ element ∈ elements, name ≠ target offset element) :
    (elements.foldl (place parent offset) world).kept? d name = world.kept? d name := by
  induction elements generalizing world with
  | nil => rfl
  | cons element rest ih =>
    have grown : parent < (world.place parent offset element).cursors.size := by
      rw [(alike_place world element).size]
      exact inside
    rw [List.foldl_cons, ih grown
        (fun same other member => apart same other (List.mem_cons_of_mem _ member)),
      kept?_place inside,
      if_neg (fun both => apart both.1 element List.mem_cons_self both.2)]

theorem kept?_places_mem (inside : parent < world.cursors.size)
    (distinct : elements.Pairwise (fun one other => target offset one ≠ target offset other))
    (member : element ∈ elements) :
    (elements.foldl (place parent offset) world).kept? parent (target offset element) =
      some element.2 := by
  induction elements generalizing world with
  | nil => cases member
  | cons first rest ih =>
    have grown : parent < (world.place parent offset first).cursors.size := by
      rw [(alike_place world first).size]
      exact inside
    obtain ⟨apart, distinctRest⟩ := List.pairwise_cons.mp distinct
    rcases List.mem_cons.mp member with rfl | later
    · rw [List.foldl_cons, kept?_places_other grown (fun _ other inRest => apart other inRest),
        kept?_place inside, if_pos ⟨rfl, rfl⟩]
    · exact ih grown distinctRest later

theorem name?_places_other (apart : ∀ element ∈ elements, d ≠ element.2) :
    (elements.foldl (place parent offset) world).name? d = world.name? d := by
  induction elements generalizing world with
  | nil => rfl
  | cons element rest ih =>
    rw [List.foldl_cons, ih (fun other member => apart other (List.mem_cons_of_mem _ member)),
      name?_place_other (apart element List.mem_cons_self)]

theorem name?_places_mem (distinct : elements.Pairwise (fun one other => one.2 ≠ other.2))
    (inside : ∀ element ∈ elements, element.2 < world.cursors.size) (member : element ∈ elements) :
    (elements.foldl (place parent offset) world).name? element.2 =
      some (target offset element) := by
  induction elements generalizing world with
  | nil => cases member
  | cons first rest ih =>
    obtain ⟨apart, distinctRest⟩ := List.pairwise_cons.mp distinct
    rcases List.mem_cons.mp member with rfl | later
    · rw [List.foldl_cons, name?_places_other apart,
        name?_place_self (inside _ List.mem_cons_self)]
    · refine ih distinctRest ?_ later
      intro other inRest
      rw [(alike_place world first).size]
      exact inside other (List.mem_cons_of_mem _ inRest)

/-- Forgetting the elements of a list leaves the other children kept. -/
theorem kept?_forgets (elements : List (Nat × CursorId)) (world : World) (d : CursorId)
    (name : SlotName) :
    (elements.foldl (fun world element => world.forget parent (.index element.1)) world).kept? d
        name =
      if d = parent ∧ ∃ element ∈ elements, name = .index element.1 then none
      else world.kept? d name := by
  induction elements generalizing world with
  | nil => simp
  | cons element rest ih =>
    rw [List.foldl_cons, ih, kept?_forget]
    by_cases here : d = parent ∧ name = .index element.1
    · have both : d = parent ∧ ∃ other ∈ element :: rest, name = .index other.1 :=
        ⟨here.1, element, List.mem_cons_self, here.2⟩
      rw [if_pos here, if_pos both, ite_self]
    · rw [if_neg here]
      by_cases later : d = parent ∧ ∃ other ∈ rest, name = .index other.1
      · obtain ⟨same, other, member, equal⟩ := later
        rw [if_pos ⟨same, other, member, equal⟩,
          if_pos ⟨same, other, List.mem_cons_of_mem _ member, equal⟩]
      · rw [if_neg later, if_neg]
        rintro ⟨same, other, member, equal⟩
        rcases List.mem_cons.mp member with rfl | inRest
        · exact here ⟨same, equal⟩
        · exact later ⟨same, other, inRest, equal⟩

theorem name?_forgets (elements : List (Nat × CursorId)) (world : World) (d : CursorId) :
    (elements.foldl (fun world element => world.forget parent (.index element.1)) world).name? d =
      world.name? d := by
  induction elements generalizing world with
  | nil => rfl
  | cons element rest ih =>
    rw [List.foldl_cons, ih, name?_forget]

theorem alike_forgets (parent : CursorId) (elements : List (Nat × CursorId)) (world : World) :
    Alike world
      (elements.foldl (fun world element => world.forget parent (.index element.1)) world) := by
  induction elements generalizing world with
  | nil => exact Alike.refl world
  | cons element rest ih =>
    exact (alike_forget world parent _).trans (ih _)

theorem lt_size_forgets (inside : parent < world.cursors.size) :
    parent < (elements.foldl (fun world element => world.forget parent (.index element.1))
      world).cursors.size := by
  rw [(alike_forgets parent elements world).size]
  exact inside

end Place

end World

namespace Cursor

theorem mem_elementsFrom {cursor : Cursor} :
    (position, d) ∈ cursor.elementsFrom start ↔
      start ≤ position ∧ cursor.children.get? (.index position) = some d := by
  unfold elementsFrom
  rw [List.mem_filterMap]
  constructor
  · rintro ⟨⟨name, child⟩, member, found⟩
    cases name with
    | key characters => cases found
    | index other =>
      dsimp only at found
      split at found
      · rename_i behind
        cases found
        exact ⟨behind, Assoc.mem_entries.mp member⟩
      · cases found
  · rintro ⟨behind, kept⟩
    exact ⟨(.index position, d), Assoc.mem_entries.mpr kept, by simp [behind]⟩

/-- No index occurs twice among the kept elements. -/
theorem pairwise_elementsFrom (cursor : Cursor) (start : Nat) :
    (cursor.elementsFrom start).Pairwise (fun one other => one.1 ≠ other.1) := by
  have distinct := List.pairwise_map.mp cursor.children.distinct
  refine List.Pairwise.filterMap _ ?_ distinct
  intro one other apart found member otherFound otherMember equal
  obtain ⟨name, child⟩ := one
  obtain ⟨otherName, otherChild⟩ := other
  cases name with
  | key characters => cases member
  | index position =>
    cases otherName with
    | key characters => cases otherMember
    | index otherPosition =>
      dsimp only at member otherMember
      split at member
      · split at otherMember
        · cases member
          cases otherMember
          exact apart (congrArg SlotName.index equal)
        · cases otherMember
      · cases member

end Cursor

namespace Action

open World

/-- Moving a list of distinct children that bear their names ends well if every target is an
index, and otherwise with the complaint that one is not. -/
theorem run_forM_moveElement (parent : CursorId) (offset : Int) (elements : List (Nat × CursorId))
    (world : World) (distinct : elements.Pairwise (fun one other => one.2 ≠ other.2))
    (named : ∀ element ∈ elements, world.name? element.2 = some (.index element.1)) :
    (elements.forM (moveElement parent offset) world =
        .ok ⟨⟩ (elements.foldl (place parent offset) world) ∧
      ∀ element ∈ elements, 0 ≤ element.1 + offset ∧ element.1 + offset < indexBound) ∨
    ∃ after, elements.forM (moveElement parent offset) world = .error (.fault .indexRange) after ∧
      after.store = world.store ∧
      ∃ element ∈ elements, ¬(0 ≤ element.1 + offset ∧ element.1 + offset < indexBound) := by
  induction elements generalizing world with
  | nil => exact Or.inl ⟨rfl, fun _ member => absurd member List.not_mem_nil⟩
  | cons first rest ih =>
    obtain ⟨apart, distinctRest⟩ := List.pairwise_cons.mp distinct
    have bears := named first List.mem_cons_self
    by_cases fits : 0 ≤ first.1 + offset ∧ first.1 + offset < indexBound
    · have moved : moveElement parent offset first world =
          .ok ⟨⟩ (world.place parent offset first) := by
        simp [moveElement, bears, fits, place, target]
      have namedRest : ∀ element ∈ rest, (world.place parent offset first).name? element.2 =
          some (.index element.1) := by
        intro element member
        rw [name?_place_other (apart element member).symm]
        exact named element (List.mem_cons_of_mem _ member)
      have unrolled : (first :: rest).forM (moveElement parent offset) world =
          rest.forM (moveElement parent offset) (world.place parent offset first) := by
        show (moveElement parent offset first >>= fun _ => rest.forM (moveElement parent offset))
          world = _
        rw [run_bind, moved]
      rw [unrolled]
      rcases ih _ distinctRest namedRest with
        ⟨result, inRange⟩ | ⟨after, result, store, element, member, beyond⟩
      · refine Or.inl ⟨result, ?_⟩
        intro element member
        rcases List.mem_cons.mp member with rfl | inRest
        · exact fits
        · exact inRange element inRest
      · exact Or.inr ⟨after, result, store, element, List.mem_cons_of_mem _ member, beyond⟩
    · refine Or.inr ⟨world, ?_, rfl, first, List.mem_cons_self, fits⟩
      show (moveElement parent offset first >>= fun _ => rest.forM (moveElement parent offset))
        world = _
      have refused : (decide (0 ≤ (first.1 : Int) + offset) &&
          decide ((first.1 : Int) + offset < indexBound)) = false := by
        rw [Bool.and_eq_false_iff, decide_eq_false_iff_not, decide_eq_false_iff_not]
        exact Decidable.not_and_iff_not_or_not.mp fits
      simp [moveElement, bears, refused]

end Action

namespace World

/-! ### Moving all elements behind an index -/

/-- Moves by an offset never meet a child that stays, as long as the index in front is free
when they go down. -/
def Room (world : World) (parent : CursorId) (start : Nat) (offset : Int) : Prop :=
  0 ≤ offset ∨ offset = -1 ∧ 0 < start ∧ world.kept? parent (.index (start - 1)) = none

theorem target_ne_of_inFront (room : Room world parent start offset) (front : name.InFront start)
    (kept : world.kept? parent name = some d) (behind : start ≤ element.1) :
    name ≠ target offset element := by
  rintro rfl
  have before := front _ rfl
  rcases room with up | ⟨down, positive, free⟩
  · omega
  · have last : (element.1 + offset).toNat = start - 1 := by omega
    rw [target, last, free] at kept
    cases kept

theorem pairwise_target (room : Room world parent start offset) (cursor : Cursor) :
    (cursor.elementsFrom start).Pairwise
      (fun one other => target offset one ≠ target offset other) := by
  refine (cursor.pairwise_elementsFrom start).imp_of_mem ?_
  intro one other member otherMember apart equal
  have same : (one.1 + offset).toNat = (other.1 + offset).toNat := SlotName.index.inj equal
  have behind := (Cursor.mem_elementsFrom.mp member).1
  have otherBehind := (Cursor.mem_elementsFrom.mp otherMember).1
  rcases room with up | ⟨down, positive, _⟩ <;> omega

section MoveAll

variable (sound : Sound world)

include sound

theorem Sound.kept_elementsFrom
    (member : element ∈ (world.cursor parent).elementsFrom start) :
    start ≤ element.1 ∧ world.kept? parent (.index element.1) = some element.2 ∧
      world.name? element.2 = some (.index element.1) ∧ element.2 < world.cursors.size := by
  obtain ⟨behind, kept⟩ := Cursor.mem_elementsFrom.mp member
  exact ⟨behind, kept, (sound.kept kept).2⟩

theorem Sound.distinct_elementsFrom (parent : CursorId) (start : Nat) :
    ((world.cursor parent).elementsFrom start).Pairwise (fun one other => one.2 ≠ other.2) := by
  refine ((world.cursor parent).pairwise_elementsFrom start).imp_of_mem ?_
  intro one other member otherMember apart equal
  obtain ⟨_, _, first, _⟩ := sound.kept_elementsFrom member
  obtain ⟨_, _, second, _⟩ := sound.kept_elementsFrom otherMember
  rw [equal, second] at first
  exact apart (SlotName.index.inj (Option.some.inj first)).symm

omit sound in
theorem target_eq_slide (behind : start ≤ position) (d : CursorId) :
    target offset (position, d) = (SlotName.index position).slide start offset := by
  rw [SlotName.slide, if_pos behind, target]

/-- A child in front of an index is none of the elements from there on. -/
theorem Sound.ne_of_inFront (kept : world.kept? parent name = some d)
    (front : name.InFront start) (member : element ∈ (world.cursor parent).elementsFrom start) :
    d ≠ element.2 := by
  rintro rfl
  obtain ⟨behind, _, bears, _⟩ := sound.kept_elementsFrom member
  have same := (sound.kept kept).2.1
  rw [bears] at same
  exact Nat.not_lt_of_le behind (front _ (Option.some.inj same).symm)

/-- The world after the elements from an index on have been taken out of the kept children, and
put back one by one under their new names. -/
def moved (world : World) (parent : CursorId) (start : Nat) (offset : Int) : World :=
  ((world.cursor parent).elementsFrom start).foldl (place parent offset)
    (((world.cursor parent).elementsFrom start).foldl
      (fun world element => world.forget parent (.index element.1)) world)

variable (inside : parent < world.cursors.size) (room : Room world parent start offset)

include inside room

omit sound in
/-- What is found under a name after the move was kept under one that goes there. -/
theorem kept?_of_moved {goal : SlotName}
    (kept : (world.moved parent start offset).kept? parent goal = some d) :
    ∃ name, world.kept? parent name = some d ∧ name.slide start offset = goal := by
  by_cases hit : ∃ element ∈ (world.cursor parent).elementsFrom start, goal = target offset element
  · obtain ⟨⟨position, child⟩, member, rfl⟩ := hit
    rw [moved, kept?_places_mem (lt_size_forgets inside) (pairwise_target room _) member] at kept
    cases kept
    obtain ⟨behind, old⟩ := Cursor.mem_elementsFrom.mp member
    exact ⟨.index position, old, (target_eq_slide behind _).symm⟩
  · have missed : ∀ element ∈ (world.cursor parent).elementsFrom start,
        goal ≠ target offset element := fun element member equal => hit ⟨element, member, equal⟩
    rw [moved, kept?_places_other (lt_size_forgets inside) (fun _ => missed), kept?_forgets] at kept
    split at kept
    · cases kept
    · rename_i stays
      refine ⟨goal, kept, SlotName.slide_of_inFront ?_ offset⟩
      intro position equal
      refine Nat.lt_of_not_le fun behind => stays ⟨rfl, (position, d), ?_, equal⟩
      exact Cursor.mem_elementsFrom.mpr ⟨behind, equal ▸ kept⟩

/-- What was kept under a name is kept under the one it goes to. -/
theorem Sound.kept?_moved (kept : world.kept? parent name = some d) :
    (world.moved parent start offset).kept? parent (name.slide start offset) = some d := by
  rcases name.inFront_or_behind start with front | ⟨position, rfl, behind⟩
  · have untouched : ∀ element ∈ (world.cursor parent).elementsFrom start,
        name ≠ target offset element := fun element member =>
      target_ne_of_inFront room front kept (sound.kept_elementsFrom member).1
    rw [SlotName.slide_of_inFront front, moved,
      kept?_places_other (lt_size_forgets inside) (fun _ => untouched), kept?_forgets, if_neg]
    · exact kept
    · rintro ⟨_, element, member, equal⟩
      exact Nat.not_lt_of_le (sound.kept_elementsFrom member).1 (front _ equal)
  · rw [← target_eq_slide behind d]
    exact kept?_places_mem (lt_size_forgets inside) (pairwise_target room _)
      (Cursor.mem_elementsFrom.mpr ⟨behind, kept⟩)

omit inside room in
/-- A kept child bears the name it goes to. -/
theorem Sound.name?_moved (kept : world.kept? parent name = some d) :
    (world.moved parent start offset).name? d = some (name.slide start offset) := by
  rcases name.inFront_or_behind start with front | ⟨position, rfl, behind⟩
  · rw [SlotName.slide_of_inFront front, moved,
      name?_places_other fun _ member => sound.ne_of_inFront kept front member, name?_forgets]
    exact (sound.kept kept).2.1
  · rw [← target_eq_slide behind d]
    refine name?_places_mem (sound.distinct_elementsFrom parent start) ?_
      (Cursor.mem_elementsFrom.mpr ⟨behind, kept⟩)
    intro element member
    rw [(alike_forgets _ _ _).size]
    exact (sound.kept_elementsFrom member).2.2.2

/-- Moving the elements moves every child to where its slot went. -/
theorem Sound.rearranged_moved :
    Rearranged (fun name => some (name.slide start offset)) parent world
      (world.moved parent start offset) where
  toAlike := (alike_forgets parent _ world).trans (alike_places _ _)
  others {c} different name := by
    rw [moved, kept?_places_other (lt_size_forgets inside) (fun same => absurd same different),
      kept?_forgets, if_neg (fun both => different both.1)]
  entries {target d} := by
    constructor
    · intro kept
      obtain ⟨name, keptBefore, goes⟩ := kept?_of_moved inside room kept
      exact ⟨name, keptBefore, congrArg some goes⟩
    · rintro ⟨name, kept, goes⟩
      cases goes
      exact sound.kept?_moved inside room kept
  moved {name target d} kept goes := by
    cases goes
    exact sound.name?_moved kept
  stays {d} dropped := by
    rw [World.moved, name?_places_other, name?_forgets]
    rintro ⟨position, child⟩ member rfl
    cases dropped _ (Cursor.mem_elementsFrom.mp member).2

end MoveAll

end World

namespace Action

open World

section MoveElements

theorem kept?_forget_length (position : Nat) :
    (world.forget parent .length).kept? parent (.index position) =
      world.kept? parent (.index position) := by
  rw [kept?_forget, if_neg (fun both => nomatch both.2)]

/-- The elements that are to move are forgotten first. -/
theorem moveElements_eq (moves : offset ≠ 0) :
    moveElements parent start offset world =
      (((world.forget parent .length).cursor parent).elementsFrom start).forM
        (moveElement parent offset)
        ((((world.forget parent .length).cursor parent).elementsFrom start).foldl
          (fun world element => world.forget parent (.index element.1))
          (world.forget parent .length)) := by
  simp only [moveElements, run_bind, run_modify, if_pos moves, run_get]

variable (sound : Sound world)

include sound

/-- The elements that are to move bear their names. -/
theorem named_elementsFrom (element : Nat × CursorId)
    (member : element ∈ ((world.forget parent .length).cursor parent).elementsFrom start) :
    ((((world.forget parent .length).cursor parent).elementsFrom start).foldl
      (fun world element => world.forget parent (.index element.1))
      (world.forget parent .length)).name? element.2 = some (.index element.1) := by
  rw [name?_forgets]
  exact ((sound.forget parent .length).kept_elementsFrom member).2.2.1

/-- Moving the elements from an index on rearranges the kept children, unless one of them
would have to bear a number that is no index. -/
theorem run_moveElements (inside : parent < world.cursors.size)
    (room : Room world parent start offset) :
    (∃ after, moveElements parent start offset world = .ok ⟨⟩ after ∧
      Rearranged (SlotName.shifted start offset) parent world after) ∨
    ∃ after, moveElements parent start offset world = .error (.fault .indexRange) after ∧
      after.store = world.store ∧ offset ≠ 0 ∧ ∃ position d, start ≤ position ∧
        world.kept? parent (.index position) = some d ∧ (indexBound : Int) ≤ position + offset := by
  have forgotten := alike_forget world parent .length
  have soundForgotten := sound.forget parent .length
  by_cases still : offset = 0
  · subst still
    refine Or.inl ⟨world.forget parent .length, by simp [moveElements], ?_⟩
    have plain : SlotName.shifted start 0 = SlotName.without .length some := by
      funext name
      simp only [SlotName.shifted, SlotName.without, SlotName.slide_zero]
    rw [plain]
    exact (soundForgotten.rearranged_refl parent).after_forget
  · have grown : parent < (world.forget parent .length).cursors.size := by
      rw [forgotten.size]
      exact inside
    have roomForgotten : Room (world.forget parent .length) parent start offset := by
      rcases room with up | ⟨down, positive, free⟩
      · exact Or.inl up
      · exact Or.inr ⟨down, positive, by rw [kept?_forget_length, free]⟩
    have rearranged := soundForgotten.rearranged_moved grown roomForgotten
    rw [moveElements_eq still]
    rcases run_forM_moveElement parent offset _ _
        (soundForgotten.distinct_elementsFrom parent start) (named_elementsFrom sound) with
      ⟨result, _⟩ | ⟨after, result, store, element, member, beyond⟩
    · exact Or.inl ⟨_, result, rearranged.after_forget⟩
    · refine Or.inr ⟨after, result, ?_, still, element.1, element.2, ?_⟩
      · rw [store, (alike_forgets _ _ _).store, forgotten.store]
      · obtain ⟨behind, kept, _⟩ := soundForgotten.kept_elementsFrom member
        rw [kept?_forget_length] at kept
        refine ⟨behind, kept, ?_⟩
        rcases room with up | ⟨down, positive, _⟩ <;> omega

/-- One child that would have to bear a number that is no index stops the move. -/
theorem moveElements_beyond {d : CursorId} (moves : offset ≠ 0) (behind : start ≤ position)
    (kept : world.kept? parent (.index position) = some d)
    (beyond : (indexBound : Int) ≤ position + offset) :
    ∃ after, moveElements parent start offset world = .error (.fault .indexRange) after := by
  rw [moveElements_eq moves]
  rcases run_forM_moveElement parent offset _ _
      ((sound.forget parent .length).distinct_elementsFrom parent start)
      (named_elementsFrom sound) with
    ⟨_, inRange⟩ | ⟨after, result, _⟩
  · rw [← kept?_forget_length] at kept
    have within := inRange (position, d) (Cursor.mem_elementsFrom.mpr ⟨behind, kept⟩)
    omega
  · exact ⟨after, result⟩

end MoveElements

end Action

end CodeTree
