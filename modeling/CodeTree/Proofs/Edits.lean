/-
Operations as edits of trees. Asked through a cursor, an operation works on one container: what
the cursor stands for, or what holds its slot. What it makes of the elements or the members of
the container is a function on lists. An operation makes its edit if it exchanges the subtree of
the container accordingly and leaves every other composite as it was, with the cursors of the
slots that survive moving along, or if there is no such edit and it fails and writes nothing.
-/

import CodeTree.Proofs.Runs
import CodeTree.Proofs.Trees

namespace CodeTree

variable {world : World} {x : CursorId} {contents : Composite} {path : List SlotName}
  {added items : List Value} {removed start : Nat} {operation : Operation}

namespace SlotName

/-- Where the slots of an array go when elements are inserted. If there are none, nothing happens,
and the length stays too. -/
def inserted (start count : Nat) : SlotName → Option SlotName :=
  if count = 0 then some else spliced start 0 count

end SlotName

/-! ### Edits of containers -/

namespace Operation

/-- An operation that does not only look. -/
def Edits : Operation → Prop
  | get _ | getIn _ => False
  | _ => True

/-- The path to the container that an operation works on, by the path of the cursor. -/
def place (path : List SlotName) : Operation → List SlotName
  | insertBefore _ | insertAfter _ | replace _ | replaceWith _ | remove => path.dropLast
  | _ => path

/-- What an operation makes of the elements of an array. Beside an element or in its place, it
goes by the last name in the path of the cursor. -/
def items? {α : Type} (plant : Value → α) (last? : Option SlotName) (items : List α) :
    Operation → Option (List α)
  | shift => some items.tail
  | unshift values => some (values.map plant ++ items)
  | push values => some (items ++ values.map plant)
  | pop => some items.dropLast
  | insertAt index values => some (splice (min index items.length) 0 (values.map plant) items)
  | insertBefore values =>
    (last?.bind SlotName.index?).map fun index => splice index 0 (values.map plant) items
  | insertAfter values =>
    (last?.bind SlotName.index?).map fun index => splice (index + 1) 0 (values.map plant) items
  | replace values =>
    (last?.bind SlotName.index?).map fun index => splice index 1 (values.map plant) items
  | replaceWith value =>
    (last?.bind SlotName.index?).map fun index => splice index 1 [plant value] items
  | remove => (last?.bind SlotName.index?).map fun index => splice index 1 [] items
  | get _ | getIn _ => none

/-- What an operation makes of the members of an object. -/
def members? {α : Type} (plant : Value → α) (last? : Option SlotName)
    (members : List (String × α)) : Operation → Option (List (String × α))
  | replace [] | remove => last?.map fun name => Entries.drop name.text members
  | replace [value] | replaceWith value =>
    last?.map fun name => Entries.put name.text (plant value) members
  | _ => none

/-- What an operation makes of a container. -/
def alter? (plant : Value → Tree) (last? : Option SlotName) (operation : Operation) :
    Tree → Option Tree
  | .leaf _ => none
  | .array id items => (operation.items? plant last? items).map (.array id)
  | .object id members => (operation.members? plant last? members).map (.object id)

/-- Where the slots of a container of a length go. The slot of a value that is replaced does not
survive, nor does the length of an array that is written. -/
def move (last? : Option SlotName) (length : Nat) : Operation → SlotName → Option SlotName
  | shift => SlotName.spliced 0 1 0
  | unshift values => SlotName.spliced 0 0 values.length
  | push values => SlotName.spliced length 0 values.length
  | pop => SlotName.spliced (length - 1) 1 0
  | insertAt index values => SlotName.inserted (min index length) values.length
  | insertBefore values => fun name =>
    (last?.bind SlotName.index?).bind fun index => name.inserted index values.length
  | insertAfter values => fun name =>
    (last?.bind SlotName.index?).bind fun index => name.inserted (index + 1) values.length
  | replace values => fun name => last?.bind fun last => last.replaced values.length name
  | replaceWith _ => fun name => last?.bind fun last => last.replaced 1 name
  | remove => fun name => last?.bind fun last => last.replaced 0 name
  | get _ | getIn _ => some

theorem items?_map {α : Type} (plant : Value → α) (last? : Option SlotName) (items : List Value)
    (operation : Operation) :
    operation.items? plant last? (items.map plant) =
      (operation.items? id last? items).map (List.map plant) := by
  cases operation <;> simp [items?, splice, Function.comp_def]

end Operation

namespace Entries

variable {κ α β : Type} [DecidableEq κ] (image : α → β)

theorem drop_map (key : κ) (entries : List (κ × α)) :
    drop key (entries.map fun entry => (entry.1, image entry.2)) =
      (drop key entries).map fun entry => (entry.1, image entry.2) := by
  rw [drop, drop, List.filter_map]
  rfl

theorem put_map (key : κ) (value : α) (entries : List (κ × α)) :
    put key (image value) (entries.map fun entry => (entry.1, image entry.2)) =
      (put key value entries).map fun entry => (entry.1, image entry.2) := by
  induction entries with
  | nil => rfl
  | cons head rest ih =>
    by_cases equal : key = head.1
    · simp [put, equal]
    · simp [put, equal, ih]

end Entries

namespace World

/-! ### Edits of a tree -/

/-- A world whose tree is that of another world with one subtree exchanged. Nothing else is
written, the cursors of the slots that survive have moved with them, and the cursors bear the
names that lead to them, whatever handles are left. -/
structure Exchanged (place : List SlotName) (move : SlotName → Option SlotName) (altered : Tree)
    (world after : World) : Prop where
  tree : after.store.tree (after.value 0) =
    (world.store.tree (world.value 0)).graft place altered
  elsewhere : ∀ {value}, world.store.part? (world.value 0) place ≠ some value →
    after.store.contents? value = world.store.contents? value
  survives : ∀ {path moved d}, world.follow? 0 path = some d →
    SlotName.movePath move place path = some moved →
      after.follow? 0 moved = some d ∧ after.value d = world.value d
  named : ∀ {path d}, after.follow? 0 path = some d → ∀ held : List CursorId,
    (∀ e ∈ held, e < after.cursors.size) → 0 ∈ held ∨ d ∈ held →
      ({ after with held } : World).names d = path

/-- The cursors that a replacement gives: one for each value, at its slot. The first is the cursor
that was asked. What hangs below it stays if the first value is the one it stood for. -/
structure Replaced (c : CursorId) (path : List SlotName) (values : List Value)
    (world after : World) (cs : List CursorId) : Prop where
  length : cs.length = values.length
  distinct : cs.Nodup
  first : values ≠ [] → cs.head? = some c
  places : ∀ {position d name}, cs[position]? = some d → path.getLast? = some name →
    after.follow? 0 (path.dropLast ++ [name.further position]) = some d ∧
      ∃ value, values[position]? = some value ∧ value.same (after.value d) = true
  below : ∀ {value rest d}, values.head? = some value → (world.value c).same value = true →
    rest ≠ [] → world.follow? c rest = some d →
      after.follow? c rest = some d ∧ after.value d = world.value d

/-- The answer that an operation gives, by the elements of its container. -/
def Answers (c : CursorId) (path : List SlotName) (items : List Tree) (world after : World)
    (answer : Operation.Answer) : Operation → Prop
  | .shift => answer = .value (items.head?.map Tree.value)
  | .unshift values | .push values => answer = .count (items.length + values.length)
  | .pop => answer = .value (items.getLast?.map Tree.value)
  | .insertAt _ _ | .insertBefore _ | .insertAfter _ | .remove => answer = .done
  | .replace values => ∃ cs, answer = .cursors cs ∧ Replaced c path values world after cs
  | .replaceWith _ => answer = .cursor c
  | .get _ | .getIn _ => False

/-- An operation through the cursor at a path either makes its edit of the tree, or there is no
such edit, and then it fails and writes nothing. -/
def MakesEdit (world : World) (c : CursorId) (path : List SlotName) (operation : Operation) :
    Prop :=
  (∃ container altered answer after,
    (world.store.tree (world.value 0)).at? (operation.place path) = some container ∧
    operation.alter? world.store.tree path.getLast? container = some altered ∧
    operation.run c world = .ok answer after ∧
    Exchanged (operation.place path) (operation.move path.getLast? container.items.length) altered
      world after ∧
    Answers c path container.items world after answer operation) ∨
  (∀ container,
    (world.store.tree (world.value 0)).at? (operation.place path) = some container →
      operation.alter? world.store.tree path.getLast? container = none) ∧
    ∃ halt after, operation.run c world = .error halt after ∧ after.store = world.store

/-- A reachable child of a cursor is reached through it. -/
theorem Sound.path_of_above (sound : Sound world) {root d : CursorId} {place : List SlotName}
    (top : world.above? root = none) (reachable : world.follow? root place = some x)
    (leads : world.follow? root path = some d) (above : world.above? d = some x) :
    ∃ name, path = place ++ [name] ∧ world.kept? x name = some d := by
  rcases List.eq_nil_or_concat path with rfl | ⟨front, name, rfl⟩
  · cases leads
    rw [top] at above
    cases above
  · rw [List.concat_eq_append] at leads ⊢
    obtain ⟨holder, toHolder, kept⟩ := follow?_concat.mp leads
    rw [(sound.kept kept).1] at above
    cases above
    rw [sound.follow_unique toHolder reachable]
    exact ⟨name, rfl, kept⟩

/-- The effect of an edit on the tree. -/
theorem Effect.exchanged {x : CursorId} {taken emptied : CursorId → Prop}
    {moves move : SlotName → Option SlotName} {contents : Composite} {world after : World}
    {id : CompositeId} {place : List SlotName}
    (effect : Effect x taken emptied moves (some contents) world after)
    (coherent : Coherent 0 world) (coherentAfter : Coherent 0 after)
    (leads : world.follow? 0 place = some x) (here : world.value x = .composite id)
    (goes : ∀ {name target d}, world.kept? x name = some d → move name = some target →
      moves name = some target ∧ ¬taken d) :
    Exchanged place move (contents.tree id world.store.tree) world after := by
  have sound := coherent.sound
  have sameRoot : after.value 0 = world.value 0 := effect.value coherent.present fun took => by
    have above := effect.below took
    rw [coherent.top] at above
    cases above
  have sameContainer : after.value x = world.value x := by
    refine effect.value (sound.lt_size_of_follow coherent.present leads) fun took => ?_
    exact Nat.lt_irrefl x (sound.older (effect.below took))
  have leadsStill : after.follow? 0 place = some x :=
    effect.follow_moved sound leads leads (SlotName.movePath_self _ _) fun through => by
      simp at through
  have there := coherent.part_of_follow leads here
  have others {other : Value} (different : other ≠ .composite id) :
      after.store.contents? other = world.store.contents? other := by
    rw [← here] at different
    exact effect.contents different
  refine ⟨?_, ?_, ?_, ?_⟩
  · have thereStill := coherentAfter.part_of_follow leadsStill (sameContainer.trans here)
    have unshared : after.store.Unshared (after.value 0) := coherentAfter.unshared
    have written := effect.written
    rw [here] at written
    rw [← Store.tree_of_contents others unshared thereStill written]
    rw [sameRoot] at unshared ⊢
    exact Store.tree_of_write others coherent.unshared unshared there
  · intro value elsewhere
    refine others fun equal => elsewhere ?_
    rw [equal]
    exact there
  · intro path moved d leadsThere movesAlong
    have inside := sound.lt_size_of_follow coherent.present leadsThere
    rcases SlotName.movePath_cases movesAlong with
      ⟨name, rest, target, rfl, moving, rfl⟩ | ⟨anyway, rfl, away⟩
    · have through := leadsThere
      rw [follow?_append, leads, Option.bind_some] at through
      obtain ⟨next, kept, onward⟩ := Option.bind_eq_some_iff.mp through
      obtain ⟨movesThere, untaken⟩ := goes kept moving
      constructor
      · refine effect.follow_moved sound leads leadsThere
          ((SlotName.movePath_append _ _ _ _).trans (by rw [movesThere]; rfl)) ?_
        intro step beyond e same keptThere empty
        have sameStep := (List.cons.inj (List.append_cancel_left same)).1
        rw [← sameStep, kept] at keptThere
        cases keptThere
        exact absurd (effect.empty empty).1 untaken
      · refine effect.value inside fun took => ?_
        obtain ⟨step, same, keptThere⟩ :=
          sound.path_of_above coherent.top leads leadsThere (effect.below took)
        have sameStep := (List.cons.inj (List.append_cancel_left same)).1
        rw [← sameStep, kept] at keptThere
        cases keptThere
        exact untaken took
    · constructor
      · refine effect.follow_moved sound leads leadsThere (anyway _) ?_
        intro step beyond e same
        exact absurd same (away step beyond)
      · refine effect.value inside fun took => ?_
        obtain ⟨step, same, _⟩ :=
          sound.path_of_above coherent.top leads leadsThere (effect.below took)
        exact away step [] same
  · intro path d leadsNow held inside kept
    have now := coherentAfter.handles inside
    have leadsThere := (follow?_withHeld after held 0 path).trans leadsNow
    have alive := now.sound.isAlive_root now.top now.present leadsThere kept
    exact now.sound.names_of_follow now.top alive leadsThere

/-! ### Operations at their containers -/

namespace Coherent

variable (coherent : Coherent 0 world) {place : List SlotName}
  (leads : world.follow? 0 place = some x)

include coherent leads

/-- What stands at the end of a path of kept cursors is what the last of them stands for. -/
theorem same_of_part {part : Value} (there : world.store.part? (world.value 0) place = some part) :
    part.same (world.value x) = true := by
  refine follow?_induction (motive := fun path c => ∀ {part},
    world.store.part? (world.value 0) path = some part → part.same (world.value c) = true)
    ?_ ?_ leads there
  · intro part there
    cases there
    exact Value.same_self (Store.NaNFree.self coherent.free)
  · intro path parent name c toParent kept same part there
    obtain ⟨holder, reached, entry⟩ := Store.part?_concat.mp there
    obtain ⟨contents, filled⟩ : ∃ contents, world.store.contents? holder = some contents := by
      refine Option.ne_none_iff_exists'.mp fun plain => ?_
      simp [Store.inner?, plain] at entry
    obtain ⟨id, rfl⟩ := Store.exists_id_of_contents? filled
    have sameHolder := Value.same_composite_left.mp (same reached)
    rw [← Store.slot_of_inner? entry, ← sameHolder]
    exact (coherent.agrees toParent kept).same

/-- The subtree at a cursor of a container. -/
theorem at?_of_contents {id : CompositeId} (here : world.value x = .composite id)
    (present : world.store.contents? (.composite id) = some contents) :
    (world.store.tree (world.value 0)).at? place = some (contents.tree id world.store.tree) := by
  have there := coherent.part_of_follow leads here
  have unshared : world.store.Unshared (world.value 0) := coherent.unshared
  rw [Store.at?_tree unshared, there, Option.map_some,
    Store.tree_of_some (unshared.part there) present]

/-- There is no edit where the elements and the members of the container have none. -/
theorem alter?_eq_none {last? : Option SlotName}
    (noItems : ∀ {items}, world.store.contents? (world.value x) = some (.array items) →
      operation.items? id last? items = none)
    (noMembers : ∀ {members : List (String × Tree)}, (∃ entries,
      world.store.contents? (world.value x) = some (.object entries)) →
      operation.members? world.store.tree last? members = none) (container : Tree)
    (there : (world.store.tree (world.value 0)).at? place = some container) :
    operation.alter? world.store.tree last? container = none := by
  cases present : world.store.contents? (world.value x) with
  | none =>
    rw [Store.at?_tree coherent.unshared] at there
    obtain ⟨part, reached, rfl⟩ := Option.map_eq_some_iff.mp there
    have same := coherent.same_of_part leads reached
    have plain : world.store.contents? part = none := by
      cases part with
      | composite id =>
        rw [Value.same_composite_left.mp same] at present
        exact present
      | _ => rfl
    rw [Store.tree_of_none plain]
    rfl
  | some contents =>
    obtain ⟨id, here⟩ := Store.exists_id_of_contents? present
    have known := present
    rw [here] at known
    rw [coherent.at?_of_contents leads here known] at there
    cases there
    cases contents with
    | array items =>
      rw [Composite.tree, Operation.alter?, Operation.items?_map, noItems present]
      rfl
    | object members =>
      rw [Composite.tree, Operation.alter?, noMembers ⟨_, present⟩]
      rfl

end Coherent

section Edit

variable (coherent : Coherent 0 world) {c : CursorId}
  (still : Coherent 0 (ended (operation.run c world)))
  (leads : world.follow? 0 (operation.place path) = some x)

include coherent still leads

/-- An operation makes its edit if it has the effect of the edit. -/
theorem MakesEdit.of_effect {id : CompositeId} {new : Composite} {answer : Operation.Answer}
    {after : World} {taken emptied : CursorId → Prop} {moves : SlotName → Option SlotName}
    (here : world.value x = .composite id)
    (present : world.store.contents? (.composite id) = some contents)
    (alters : operation.alter? world.store.tree path.getLast?
      (contents.tree id world.store.tree) = some (new.tree id world.store.tree))
    (result : operation.run c world = .ok answer after)
    (effect : Effect x taken emptied moves (some new) world after)
    (goes : ∀ {name target d}, world.kept? x name = some d →
      operation.move path.getLast? (contents.tree id world.store.tree).items.length name =
      some target → moves name = some target ∧ ¬taken d)
    (answers : Answers c path (contents.tree id world.store.tree).items world after answer
      operation) : MakesEdit world c path operation := by
  rw [result] at still
  exact Or.inl ⟨_, _, answer, after, coherent.at?_of_contents leads here present, alters, result,
    effect.exchanged coherent still leads here goes, answers⟩

/-- Operations on an array. -/
theorem MakesEdit.of_editsArray {answer : Operation.Answer}
    (array : world.store.contents? (world.value x) = some (.array items))
    (edits : EditsArray world x (operation.run c world) answer items start removed added)
    (alters : operation.items? id path.getLast? items = some (splice start removed added items))
    (goes : ∀ {name target d}, world.kept? x name = some d →
      operation.move path.getLast? items.length name = some target →
      SlotName.spliced start removed added.length name = some target)
    (answers : ∀ after, Answers c path (items.map world.store.tree) world after answer operation) :
    MakesEdit world c path operation := by
  obtain ⟨after, result, effect⟩ := edits
  obtain ⟨id, here⟩ := Store.exists_id_of_contents? array
  have present := array
  rw [here] at present
  refine .of_effect coherent still leads here present ?_ result effect ?_ (answers after)
  · rw [Composite.tree, Operation.alter?, Operation.items?_map, alters]
    rfl
  · intro name target d kept moving
    refine ⟨goes kept ?_, False.elim⟩
    rw [Composite.tree, Tree.items, List.length_map] at moving
    exact moving

end Edit

/-- The answer of an operation that gives an element, by the tree of the array. -/
theorem map_value_tree (store : Store) (value? : Option Value) :
    (value?.map store.tree).map Tree.value = value? := by
  cases value? with
  | none => rfl
  | some value => exact congrArg some (store.value_treeTo _ value)

end World

end CodeTree
