/-
Operations refine edits of trees. What remains to be seen are the replacements, which exchange one
slot of the container above, and give its cursor and new ones to the values that come. Along a
run, then, every operation that does not only look makes the edit of the tree that it stands for.
-/

import CodeTree.Proofs.ArrayEdits

namespace CodeTree

variable {after world : World} {c parent : CursorId} {contents : Composite}
  {front path : List SlotName} {values : List Value} {name : SlotName}

/-! ### Replacements -/

/-- The tree after some trees have taken the place of what stood in a slot at its top. -/
def Tree.exchangeSlot : SlotName → List Tree → Tree → Tree
  | .index position, trees, array id items => array id (splice position 1 trees items)
  | .key characters, [], object id members => object id (Entries.drop characters members)
  | .key characters, tree :: _, object id members =>
    object id (Entries.put characters tree members)
  | _, _, tree => tree

theorem Composite.tree_exchange (slot : SlotName) (values : List Value) (contents : Composite)
    (id : CompositeId) (plant : Value → Tree) :
    (contents.exchange slot values).tree id plant =
      (contents.tree id plant).exchangeSlot slot (values.map plant) := by
  cases contents with
  | array items =>
    cases slot with
    | index position =>
      simp [exchange, Composite.tree, Tree.exchangeSlot, splice]
    | key characters => cases values <;> rfl
  | object members =>
    cases slot with
    | index position => rfl
    | key characters =>
      cases values with
      | nil => exact congrArg (Tree.object id) (Entries.drop_map plant _ _).symm
      | cons value rest => exact congrArg (Tree.object id) (Entries.put_map plant _ _ _).symm

theorem Operation.alter?_replace {id : CompositeId} {plant : Value → Tree}
    (takes : contents.Takes name values) :
    (Operation.replace values).alter? plant (some name) (contents.tree id plant) =
      some ((contents.exchange name values).tree id plant) := by
  rw [Composite.tree_exchange]
  cases contents with
  | array items =>
    obtain ⟨index, rfl, _⟩ := takes
    rfl
  | object members =>
    obtain ⟨⟨characters, rfl⟩, few⟩ := takes
    match values, few with
    | [], _ | [value], _ => rfl

namespace World

/-- The cursors of a replacement. -/
theorem Supplants.replaced (supplants : Supplants c parent name values contents world after)
    (coherent : Coherent 0 world) (toParent : world.follow? 0 front = some parent)
    (kept : world.kept? parent name = some c) (takes : contents.Takes name values) :
    Replaced c (front ++ [name]) values world after (world.successors c values) := by
  obtain ⟨moves, effect, _, stays⟩ := supplants.effect
  have sound := coherent.sound
  have young := (sound.kept kept).2.2
  have toParentStill : after.follow? 0 front = some parent :=
    effect.follow_moved sound toParent toParent (SlotName.movePath_self _ _) fun through => by
      simp at through
  have length := world.length_successors c values
  refine ⟨length, ?_, ?_, ?_, ?_⟩
  · cases values with
    | nil => exact List.nodup_nil
    | cons first rest =>
      refine List.nodup_cons.mpr ⟨fun member => ?_, List.nodup_range'⟩
      exact Nat.not_le_of_lt young (List.mem_range'_1.mp member).1
  · cases values with
    | nil => exact absurd rfl
    | cons first rest => exact fun _ => rfl
  · intro position d last there named
    rw [List.getLast?_concat] at named
    cases named
    have keptThere := supplants.places there
    rw [List.dropLast_concat]
    refine ⟨follow?_concat.mpr ⟨parent, toParentStill, keptThere⟩, ?_⟩
    have early := (List.getElem?_eq_some_iff.mp there).1
    rw [length] at early
    have holds := List.getElem?_eq_getElem early
    have older := sound.lt_of_kept kept
    have agrees := (effect.entries keptThere).2.same
    rw [effect.value (Nat.lt_trans older young) (Nat.ne_of_lt older),
      Store.slot_of_inner? ((Store.inner?_of_contents effect.written _).trans
        (Composite.inner?_exchange_further takes holds))] at agrees
    exact ⟨_, holds, agrees⟩
  · intro value below d head same deeper leads
    obtain ⟨more, rfl⟩ := List.head?_eq_some_iff.mp head
    have stays := stays (List.cons_ne_nil value more)
    have through : world.follow? 0 (front ++ name :: below) = some d := by
      rw [follow?_append, toParent, Option.bind_some]
      exact Option.bind_eq_some_iff.mpr ⟨c, kept, leads⟩
    have older : c < d := by
      cases below with
      | nil => exact absurd rfl deeper
      | cons step beyond =>
        obtain ⟨next, keptNext, onward⟩ := Option.bind_eq_some_iff.mp leads
        exact Nat.lt_of_lt_of_le (sound.lt_of_kept keptNext) (sound.le_of_follow onward)
    have goes : SlotName.movePath moves front (front ++ name :: below) =
        some (front ++ name :: below) := by
      rw [SlotName.movePath_append, stays]
      rfl
    have throughStill := effect.follow_moved sound toParent through goes (by
      intro step beyond e _ _ empty
      cases same.symm.trans empty.2)
    have toSelf : after.follow? 0 (front ++ [name]) = some c :=
      follow?_concat.mpr ⟨parent, toParentStill, effect.survives kept stays⟩
    constructor
    · rw [List.append_cons, follow?_append, toSelf] at throughStill
      exact throughStill
    · exact effect.value (sound.lt_size_of_follow young leads) (Nat.ne_of_gt older)

/-- What is kept for a slot that survives a replacement is not the cursor of the replaced slot. -/
theorem Sound.ne_of_replaced (sound : Sound world) {d : CursorId} {other target : SlotName}
    {count : Nat} (kept : world.kept? parent name = some c)
    (keptThere : world.kept? parent other = some d) (goes : name.replaced count other = some target) :
    d ≠ c := by
  rintro rfl
  rw [(sound.kept_unique keptThere kept).2, SlotName.replaced_self] at goes
  cases goes

namespace Coherent

section Slot

variable (coherent : Coherent 0 world) (toParent : world.follow? 0 front = some parent)
  (kept : world.kept? parent name = some c) (alive : world.isAlive parent = true)

include coherent toParent kept alive

theorem makesEdit_replace_slot (proper : ∀ value ∈ values, value.isNaN = false)
    (fits : (ended (Action.replace c values world)).store.Fits)
    (still : Coherent 0 (ended ((Operation.replace values).run c world))) :
    MakesEdit world c (front ++ [name]) (.replace values) := by
  have sound := coherent.sound
  have agrees {name d} := @Coherent.agrees _ _ coherent _ _ name d toParent
  have place : (Operation.replace values).place (front ++ [name]) = front := List.dropLast_concat
  have last : (front ++ [name]).getLast? = some name := List.getLast?_concat
  by_cases taken : ∃ contents, world.store.contents? (world.value parent) = some contents ∧
      contents.Takes name values
  · obtain ⟨contents, present, takes⟩ := taken
    obtain ⟨after, result, supplants⟩ := replace_supplants sound agrees kept alive present takes
      proper fun _ => fits
    obtain ⟨moves, effect, goes, _⟩ := supplants.effect
    obtain ⟨id, here⟩ := Store.exists_id_of_contents? present
    rw [here] at present
    refine .of_effect coherent still (place.symm ▸ toParent) here present ?_ ?_ effect ?_
      ⟨_, rfl, supplants.replaced coherent toParent kept takes⟩
    · rw [last]
      exact Operation.alter?_replace takes
    · rw [Operation.run, Action.run_map, result]
    · intro other target d keptThere moved
      rw [last] at moved
      exact ⟨goes moved, sound.ne_of_replaced kept keptThere moved⟩
  · obtain ⟨cause, result⟩ := replace_refused sound agrees kept alive
      fun present takes => taken ⟨_, present, takes⟩
    refine Or.inr ⟨?_, .error cause, world.withoutViews c, ?_, (alike_withoutViews world c).store⟩
    · rw [place, last]
      refine coherent.alter?_eq_none toParent ?_ ?_
      · intro items array
        cases name with
        | index index => exact absurd ⟨_, array, index, rfl, (agrees kept).inside array rfl⟩ taken
        | key characters => rfl
      · rintro members ⟨entries, object⟩
        obtain ⟨_, _, _, rfl⟩ := (agrees kept).many object fun takes => taken ⟨_, object, takes⟩
        rfl
    · rw [Operation.run, Action.run_map, result]

end Slot

variable (coherent : Coherent 0 world) (leads : world.follow? 0 path = some c)
  (held : c ∈ world.held)

include coherent leads held

theorem makesEdit_replace (proper : ∀ value ∈ values, value.isNaN = false)
    (fits : (ended (Action.replace c values world)).store.Fits)
    (still : Coherent 0 (ended ((Operation.replace values).run c world))) :
    MakesEdit world c path (.replace values) := by
  rcases coherent.root_or_child leads held with
    ⟨rfl, rfl, orphan⟩ | ⟨front, parent, name, rfl, toParent, kept, alive, _, _⟩
  · refine Or.inr
      ⟨coherent.alter?_eq_none leads (fun _ => rfl) ?_, .error .noParent, world, ?_, rfl⟩
    · rintro members ⟨_, _⟩
      cases values with
      | nil => rfl
      | cons first rest => cases rest <;> rfl
    · rw [Operation.run, Action.run_map, Action.replace_of_none orphan]
  · exact coherent.makesEdit_replace_slot toParent kept alive proper fits still

end Coherent

/-- An operation that is a replacement but for its answer makes the same edit. -/
theorem MakesEdit.of_replace {operation : Operation}
    (edits : MakesEdit world c path (.replace values)) (change : List CursorId → Operation.Answer)
    (runs : operation.run c world = (change <$> Action.replace c values) world)
    (place : operation.place path = path.dropLast)
    (alters : operation.alter? world.store.tree path.getLast? =
      (Operation.replace values).alter? world.store.tree path.getLast?)
    (moves : ∀ length, operation.move path.getLast? length =
      (Operation.replace values).move path.getLast? length)
    (answers : ∀ {items after cs}, Replaced c path values world after cs →
      Answers c path items world after (change cs) operation) :
    MakesEdit world c path operation := by
  unfold MakesEdit at edits ⊢
  rw [runs, Action.run_map, place, alters]
  rw [Operation.run, Action.run_map] at edits
  rcases edits with
    ⟨container, altered, answer, after, there, altering, result, exchanged, cs, rfl, replaced⟩ |
    ⟨undefined, halt, after, result, unwritten⟩
  · cases outcome : Action.replace c values world with
    | ok made final =>
      rw [outcome] at result
      cases result
      refine Or.inl ⟨container, altered, _, after, there, altering, rfl, ?_, answers replaced⟩
      rw [moves]
      exact exchanged
    | error cause final =>
      rw [outcome] at result
      cases result
  · refine Or.inr ⟨undefined, halt, after, ?_, unwritten⟩
    cases outcome : Action.replace c values world with
    | ok made final =>
      rw [outcome] at result
      cases result
    | error cause final =>
      rw [outcome] at result
      cases result
      rfl

namespace Coherent

variable (coherent : Coherent 0 world) (leads : world.follow? 0 path = some c)
  (held : c ∈ world.held)

include coherent leads held

theorem makesEdit_replaceWith {value : Value} (proper : value.isNaN = false)
    (fits : (ended (Action.replace c [value] world)).store.Fits)
    (still : Coherent 0 (ended ((Operation.replaceWith value).run c world))) :
    MakesEdit world c path (.replaceWith value) := by
  rw [Operation.run, ended_map, Action.replaceWith_eq, ended_map,
    ← ended_map Operation.Answer.cursors] at still
  have proper : ∀ only ∈ [value], only.isNaN = false := by
    intro only member
    rw [List.mem_singleton.mp member]
    exact proper
  refine (coherent.makesEdit_replace leads held proper fits still).of_replace
    (fun cs => .cursor (cs.headD c)) ?_ rfl ?_ (fun _ => rfl) ?_
  · rw [Operation.run, Action.run_map, Action.replaceWith_eq, Action.run_map, Action.run_map]
    cases Action.replace c [value] world <;> rfl
  · funext container
    cases container <;> rfl
  · intro items after cs replaced
    have first := replaced.first (List.cons_ne_nil value [])
    show Operation.Answer.cursor (cs.headD c) = .cursor c
    rw [List.headD_eq_head?_getD, first]
    rfl

theorem makesEdit_remove (fits : (ended (Action.replace c [] world)).store.Fits)
    (still : Coherent 0 (ended (Operation.remove.run c world))) :
    MakesEdit world c path .remove := by
  rw [Operation.run, ended_map, Action.remove_eq, ended_map,
    ← ended_map Operation.Answer.cursors] at still
  have none : ∀ value ∈ ([] : List Value), value.isNaN = false := List.forall_mem_nil _
  refine (coherent.makesEdit_replace leads held none fits still).of_replace
    (fun _ => .done) ?_ rfl ?_ (fun _ => rfl) (fun _ => rfl)
  · rw [Operation.run, Action.run_map, Action.remove_eq, Action.run_map, Action.run_map]
    cases Action.replace c [] world <;> rfl
  · funext container
    cases container <;> rfl

end Coherent

/-- Along a run, an operation that does not only look, asked of a cursor whose names lead to it,
makes its edit of the tree. -/
theorem operations_edit_trees {world : World} (run : Run world) {c : CursorId}
    {operation : Operation} (legal : Legal world c operation) (edits : operation.Edits)
    (unshared : (ended (operation.run c world)).store.Unshared
      ((ended (operation.run c world)).value 0)) :
    MakesEdit world c (world.names c) operation := by
  have coherent := run.coherent
  have still := (run.asked c operation legal unshared).coherent
  obtain ⟨path, leads⟩ := legal.reachable
  have held := legal.held
  have alive := coherent.sound.isAlive_root coherent.top coherent.present leads (Or.inr held)
  have fits : (ended (operation.run c world)).store.Fits := legal.fits
  have proper : ∀ value ∈ operation.inserted, value.isNaN = false :=
    fun value member => Store.NaNFree.self (legal.free value member)
  rw [coherent.sound.names_of_follow coherent.top alive leads]
  cases operation with
  | get name => exact edits.elim
  | getIn names => exact edits.elim
  | shift | unshift | push | pop | insertAt => exact coherent.makesEdit_edit leads rfl fits still
  | insertBefore values => exact coherent.makesEdit_insertBefore leads held fits still
  | insertAfter values => exact coherent.makesEdit_insertAfter leads held fits still
  | replace values =>
    rw [Operation.run, ended_map] at fits
    exact coherent.makesEdit_replace leads held proper fits still
  | replaceWith value =>
    rw [Operation.run, ended_map, Action.replaceWith_eq, ended_map] at fits
    exact coherent.makesEdit_replaceWith leads held (proper value List.mem_cons_self) fits still
  | remove =>
    rw [Operation.run, ended_map, Action.remove_eq, ended_map] at fits
    exact coherent.makesEdit_remove leads held fits still

/-- In a run over an array of three elements, the second gives way to two values, and the cursor of
the third moves with it. -/
theorem operations_edit_trees_of_three :
    ∃ world, Run world ∧ Legal world 1 (.replace [.null, .bool true]) ∧
      ∃ after cs, Operation.run 1 (.replace [.null, .bool true]) world = .ok (.cursors cs) after ∧
        cs.length = 2 ∧ cs.head? = some 1 ∧ after.follow? 0 [.index 3] = some 2 ∧
        after.store.tree (after.value 0) = .array 0 [.leaf (.bool true), .leaf .null,
          .leaf (.bool true), .leaf .null] := by
  have edited {world : World} (run : Run world)
      (legal : Legal world 1 (.replace [.null, .bool true]))
      (unshared : (ended (Operation.run 1 (.replace [.null, .bool true]) world)).store.Unshared
        ((ended (Operation.run 1 (.replace [.null, .bool true]) world)).value 0))
      (leads : world.follow? 0 [.index 1] = some 1) (behind : world.follow? 0 [.index 2] = some 2)
      (shows : world.store.tree (world.value 0) =
        .array 0 [.leaf (.bool true), .leaf (.bool false), .leaf .null]) :
      ∃ after cs, Operation.run 1 (.replace [.null, .bool true]) world = .ok (.cursors cs) after ∧
        cs.length = 2 ∧ cs.head? = some 1 ∧ after.follow? 0 [.index 3] = some 2 ∧
        after.store.tree (after.value 0) = .array 0 [.leaf (.bool true), .leaf .null,
          .leaf (.bool true), .leaf .null] := by
    have sound := run.coherent.sound
    have top := run.coherent.top
    have names := sound.names_of_follow top
      (sound.isAlive_root top run.coherent.present leads (Or.inr legal.held)) leads
    have makes := operations_edit_trees run legal trivial unshared
    rw [names, MakesEdit, shows] at makes
    rcases makes with
      ⟨_, _, _, after, there, alters, result, exchanged, cs, rfl, replaced⟩ | ⟨undefined, _⟩
    · cases there
      cases alters
      have tree := exchanged.tree
      rw [shows] at tree
      exact ⟨after, cs, result, replaced.length, replaced.first (by decide),
        (exchanged.survives behind rfl).1, tree⟩
    · cases undefined _ rfl
  have second : Run ⟨⟨#[.array [.bool true, .bool false, .null]]⟩, #[
        ⟨.composite 0, none, none, 0, ⟨[(.index 1, 1), (.index 2, 2)], by decide⟩, .empty⟩,
        ⟨.bool false, some 0, some (.index 1), 0, .empty, .empty⟩,
        ⟨.null, some 0, some (.index 2), 0, .empty, .empty⟩], #[], [0, 1]⟩ := by
    have start := @Run.start_flat [.bool true, .bool false, .null] (by simp) (by simp [Value.isNaN])
    have first := start.element rfl (by decide) (by decide : 1 < 3) (by decide)
    exact Run.handles [0, 1] (first.element rfl (by decide) (by decide : 2 < 3) (by decide))
      (by decide)
  have living := parent?_of_above? (rfl : above? _ 1 = some 0)
    (second.coherent.sound.isAlive_root second.coherent.top second.coherent.present
      (rfl : follow? _ 0 [] = some 0) (Or.inl (by decide)))
  refine ⟨_, second, ?legal, edited second ?legal ?_ rfl rfl rfl⟩
  · refine ⟨⟨[.index 1], rfl⟩, by decide, trivial, ?_, ?_⟩
    · intro value member
      simp only [Operation.inserted, List.mem_cons, List.not_mem_nil, or_false] at member
      rcases member with rfl | rfl <;> exact Store.nanFree_of_plain rfl rfl
    · rw [Operation.run, ended_map, Action.replace_of_some living]
      exact Store.fits_of_one (by decide)
  · rw [Operation.run, ended_map, Action.replace_of_some living]
    exact Store.unshared_of_flat rfl (by simp : ∀ item ∈ [Value.bool true, .null, .bool true, .null],
      ∀ id, item ≠ .composite id)

end World

end CodeTree
