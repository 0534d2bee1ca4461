/-
What operations are made of. Every operation at a cursor is a sequence of small changes: the
elements of an array are written, a child is kept, forgotten or moved to another index, a cursor
is added. A replacement besides clears the views of its own cursor, gives the cursor another value,
and writes under the cursor's name. A relation between worlds that holds along each of these
changes holds along every operation, whichever way the operation ends. So what operations leave
alone is told of the small changes only.
-/

import CodeTree.Proofs.Responses

namespace CodeTree

variable {world : World}

variable {c : CursorId} {own : CursorId → Prop}

namespace World

/-- A relation that holds along the small changes. Values and views change at the given cursors
only, and objects are written only under the given names. -/
structure Gradual (relation : World → World → Prop) (own : CursorId → Prop)
    (written : SlotName → Prop) : Prop where
  refl : ∀ world, relation world world
  trans : ∀ {first second third}, relation first second → relation second third →
    relation first third
  items : ∀ (world : World) (array : Value) (items : List Value),
    relation world { world with store := world.store.modifyItems array (fun _ => items) }
  put : ∀ (world : World) (object : Value) {name : SlotName} (member : Value), written name →
    relation world { world with store := world.store.setMember object name.text member }
  drop : ∀ (world : World) (object : Value) {name : SlotName}, written name →
    relation world { world with store := world.store.eraseMember object name.text }
  keep : ∀ world c name child, relation world (world.keep c name child)
  forget : ∀ world c name, relation world (world.forget c name)
  move : ∀ world c index, relation world (world.rename c (.index index))
  addChild : ∀ world parent name value, relation world (world.addChild parent name value).2
  forgetAll : ∀ world {c}, own c → relation world (world.forgetAll c)
  setValue : ∀ world {c} value, own c → relation world (world.setValue c value)
  withoutViews : ∀ world {c}, own c → relation world (world.withoutViews c)

namespace Gradual

variable {relation : World → World → Prop} {written : SlotName → Prop}
  (gradual : Gradual relation own written)

include gradual

theorem forgetOnly (world : World) (c : CursorId) (name : SlotName) (child : CursorId) :
    relation world (world.forgetOnly c name child) := by
  unfold World.forgetOnly
  split
  · exact gradual.forget world c name
  · exact gradual.refl world

theorem clear (world : World) (mine : own c) (value : Value) :
    relation world ((world.setValue c value).forgetAll c) :=
  gradual.trans (gradual.setValue world value mine) (gradual.forgetAll _ mine)

theorem child (world : World) (c : CursorId) (name : SlotName) :
    relation world (world.child c name).2 := by
  rcases world.child_cases c name with ⟨_, _, _, result⟩ | ⟨_, result⟩ <;> rw [result]
  · exact gradual.refl world
  · exact gradual.addChild world _ _ _

theorem descend (world : World) (c : CursorId) (names : List SlotName) :
    relation world (world.descend c names).2 := by
  induction names generalizing world c with
  | nil => exact gradual.refl world
  | cons name rest ih =>
    exact gradual.trans (gradual.child world c name) (ih _ _)

theorem childrenAt (world : World) (c : CursorId) (names : List SlotName) :
    relation world (world.childrenAt c names).2 := by
  induction names generalizing world with
  | nil => exact gradual.refl world
  | cons name rest ih =>
    exact gradual.trans (gradual.child world c name) (ih _)

end Gradual

/-- A cursor keeps its name, or is known by an index. -/
def Renumbered (c : CursorId) (before after : World) : Prop :=
  c < before.cursors.size → c < after.cursors.size ∧
    (after.name? c = before.name? c ∨ ∃ index, after.name? c = some (.index index))

theorem renumbered_of_name? {before after : World} (size : after.cursors.size = before.cursors.size)
    (name : after.name? c = before.name? c) :
    Renumbered c before after := fun inside => ⟨size.symm ▸ inside, .inl name⟩

/-- Cursors are renamed only to be found at another index. -/
theorem gradual_renumbered (c : CursorId) :
    Gradual (Renumbered c) (fun _ => True) (fun _ => True) where
  refl _ := renumbered_of_name? rfl rfl
  trans {_ _ _} left right inside := by
    obtain ⟨young, names⟩ := left inside
    obtain ⟨younger, same | index⟩ := right young
    · rw [same]
      exact ⟨younger, names⟩
    · exact ⟨younger, .inr index⟩
  items _ _ _ := renumbered_of_name? rfl rfl
  put _ _ _ _ _ := renumbered_of_name? rfl rfl
  drop _ _ _ _ := renumbered_of_name? rfl rfl
  keep world d name child :=
    renumbered_of_name? (size_modifyCursor ..) (name?_keep world d c name child)
  forget world d name := renumbered_of_name? (size_modifyCursor ..) (name?_forget world d c name)
  move world d index inside := by
    refine ⟨(size_modifyCursor ..).symm ▸ inside, ?_⟩
    by_cases same : c = d
    · subst same
      exact .inr ⟨index, name?_rename_self world inside _⟩
    · exact .inl (name?_rename_other world same _)
  addChild world parent name value inside := by
    rw [size_addChild, name?_addChild, if_neg (Nat.ne_of_lt inside)]
    exact ⟨Nat.lt_succ_of_lt inside, .inl rfl⟩
  forgetAll world d _ := renumbered_of_name? (size_modifyCursor ..) (name?_forgetAll world d c)
  setValue world d value _ :=
    renumbered_of_name? (size_modifyCursor ..) (name?_setValue world d c value)
  withoutViews world d _ :=
    renumbered_of_name? (size_modifyCursor ..) (name?_withoutViews world d c)

end World

namespace Action

open World

variable {α β : Type}

/-- A relation holds along an action, whichever way the action ends. -/
def Abides (relation : World → World → Prop) (action : Action α) : Prop :=
  ∀ world, relation world (ended (action world))

/-- The names under which a replacement at a cursor may come to write: the cursor's own, or an
index, where the cursor is found at another one. -/
def MayWrite (written : SlotName → Prop) (world : World) (c : CursorId) : Prop :=
  (∀ name, world.name? c = some name → written name) ∧ ∀ index, written (.index index)

section Abides

variable {relation : World → World → Prop} {written : SlotName → Prop}

/-! ### Putting actions together -/

theorem abides_modify {change : World → World} (holds : ∀ world, relation world (change world)) :
    Abides relation (modify change : Action PUnit) := holds

theorem abides_ofState {run : World → α × World} (holds : ∀ world, relation world (run world).2) :
    Abides relation (ofState run) := holds

theorem Abides.map {action : Action α} (abides : Abides relation action) (change : α → β) :
    Abides relation (change <$> action) := by
  intro world
  rw [ended_map]
  exact abides world

variable (gradual : Gradual relation own written)

include gradual

theorem abides_pure (result : α) : Abides relation (pure result : Action α) :=
  fun world => gradual.refl world

theorem abides_get : Abides relation (get : Action World) := fun world => gradual.refl world

theorem abides_refuse (cause : EditError) : Abides relation (refuse cause : Action α) :=
  fun world => gradual.refl world

theorem abides_insist (condition : Bool) (cause : Fault) :
    Abides relation (insist condition cause) := by
  intro world
  rw [run_insist]
  split <;> exact gradual.refl world

theorem Abides.bind {action : Action α} {next : α → Action β} (first : Abides relation action)
    (second : ∀ result, Abides relation (next result)) : Abides relation (action >>= next) := by
  intro world
  have start := first world
  rw [run_bind]
  cases outcome : action world with
  | ok result mid =>
    rw [outcome] at start
    exact gradual.trans start (second result mid)
  | error halt mid =>
    rw [outcome] at start
    exact start

theorem abides_forM {items : List α} {action : α → Action PUnit}
    (abides : ∀ item, Abides relation (action item)) : Abides relation (items.forM action) := by
  induction items with
  | nil => exact abides_pure gradual _
  | cons item rest ih =>
    exact (abides item).bind gradual fun _ => ih

/-! ### Edits of arrays -/

section At

variable (c : CursorId)

theorem abides_setItems (items : List Value) : Abides relation (setItems c items) :=
  fun world => gradual.items world _ items

theorem abides_forget (name : SlotName) :
    Abides relation (modify (fun world => world.forget c name) : Action PUnit) :=
  fun world => gradual.forget world c name

theorem abides_arrayAt : Abides relation (arrayAt c) := by
  intro world
  rw [run_arrayAt]
  split <;> exact gradual.refl world

theorem abides_moveElement (offset : Int) (element : Nat × CursorId) :
    Abides relation (moveElement c offset element) := by
  refine (abides_get gradual).bind gradual fun _ => (abides_insist gradual _ _).bind gradual
    fun _ => (abides_insist gradual _ _).bind gradual fun _ => abides_modify fun world => ?_
  exact gradual.trans (gradual.move world _ _) (gradual.keep _ _ _ _)

theorem abides_moveElements (start : Nat) (offset : Int) :
    Abides relation (moveElements c start offset) := by
  have forgets (elements : List (Nat × CursorId)) (world : World) : relation world
      (elements.foldl (fun world element => world.forget c (.index element.1)) world) := by
    induction elements generalizing world with
    | nil => exact gradual.refl world
    | cons element rest ih =>
      exact gradual.trans (gradual.forget world c _) (ih _)
  refine (abides_forget gradual c .length).bind gradual fun _ => ?_
  split
  · exact (abides_get gradual).bind gradual fun _ => (abides_modify (forgets _)).bind gradual
      fun _ => abides_forM gradual fun element => abides_moveElement gradual c offset element
  · exact abides_pure gradual _

theorem abides_shift : Abides relation (shift c) := by
  refine (abides_arrayAt gradual c).bind gradual fun items => ?_
  cases items with
  | nil => exact (abides_forget gradual _ _).bind gradual fun _ => abides_pure gradual _
  | cons first rest =>
    exact (abides_setItems gradual _ _).bind gradual fun _ =>
      (abides_forget gradual _ _).bind gradual fun _ =>
      (abides_moveElements gradual _ _ _).bind gradual fun _ => abides_pure gradual _

theorem abides_unshift (values : List Value) : Abides relation (unshift c values) :=
  (abides_arrayAt gradual c).bind gradual fun _ => (abides_setItems gradual _ _).bind gradual
    fun _ => (abides_moveElements gradual _ _ _).bind gradual fun _ => abides_pure gradual _

theorem abides_push (values : List Value) : Abides relation (push c values) :=
  (abides_arrayAt gradual c).bind gradual fun _ => (abides_setItems gradual _ _).bind gradual
    fun _ => (abides_forget gradual _ _).bind gradual fun _ => abides_pure gradual _

theorem abides_pop : Abides relation (pop c) := by
  have ends (items : List Value) : Abides relation (do
      modify (fun world => world.forget c .length)
      return items.getLast? : Action (Option Value)) :=
    (abides_forget gradual _ _).bind gradual fun _ => abides_pure gradual _
  refine (abides_arrayAt gradual c).bind gradual fun items =>
    (abides_setItems gradual _ _).bind gradual fun _ => ?_
  split
  · exact (abides_forget gradual _ _).bind gradual fun _ => ends items
  · exact ends items

theorem abides_insertAt (index : Nat) (values : List Value) :
    Abides relation (insertAt c index values) := by
  refine (abides_arrayAt gradual c).bind gradual fun items => ?_
  split
  · exact (abides_setItems gradual _ _).bind gradual fun _ => abides_moveElements gradual _ _ _
  · exact abides_pure gradual _

theorem abides_placeInArray : Abides relation (placeInArray c) := by
  refine (abides_get gradual).bind gradual fun world => ?_
  split
  · split
    · exact abides_pure gradual _
    · exact abides_refuse gradual _
  · exact abides_refuse gradual _

end At

/-! ### Replacements -/

theorem abides_checkRepaired (c parent : CursorId) (container value : Value) (name : SlotName) :
    Abides relation (checkRepaired c parent container value name) :=
  (abides_get gradual).bind gradual fun _ => (abides_insist gradual _ _).bind gradual fun _ =>
    (abides_ofState fun world => gradual.child world parent _).bind gradual fun _ =>
    abides_insist gradual _ _

theorem repair_abides (writes : ∀ name, world.name? c = some name → written name)
    (parent : CursorId) : relation world (ended (repair c parent world)) := by
  cases named : world.name? c with
  | none =>
    have nothing : repair c parent world = .ok () world := by simp [repair, named]
    rw [nothing]
    exact gradual.refl world
  | some name =>
    rw [repair_eq named]
    refine gradual.trans ?_ (abides_checkRepaired gradual _ _ _ _ _ _)
    split
    · exact gradual.keep world parent name c
    · split
      · split
        · exact gradual.trans (gradual.trans (gradual.forgetOnly world _ _ _) (gradual.move _ _ _))
            (gradual.keep _ _ _ _)
        · exact gradual.refl world
      · exact gradual.trans (gradual.put world _ _ (writes name named)) (gradual.keep _ _ _ _)
      · exact gradual.refl world

variable (mine : own c)

include mine

theorem abides_replaceElement (parent : CursorId) (name : SlotName) (items values : List Value) :
    Abides relation (replaceElement c parent name items values) := by
  have clears (value : Value) : Abides relation (modify (fun world =>
      (world.setValue c value).forgetAll c) : Action PUnit) :=
    fun world => gradual.clear world mine value
  cases name with
  | key characters =>
    intro world
    rw [replaceElement_key]
    exact gradual.refl world
  | index index =>
    refine (abides_insist gradual _ _).bind gradual fun _ =>
      (abides_setItems gradual _ _).bind gradual fun _ => (abides_get gradual).bind gradual fun _ =>
      (abides_insist gradual _ _).bind gradual fun _ => (abides_insist gradual _ _).bind gradual ?_
    intro _
    cases values with
    | nil =>
      exact (abides_forget gradual _ _).bind gradual fun _ =>
        (abides_moveElements gradual _ _ _).bind gradual fun _ =>
        (clears _).bind gradual fun _ => abides_pure gradual _
    | cons first rest =>
      refine (abides_moveElements gradual _ _ _).bind gradual fun _ =>
        (abides_insist gradual _ _).bind gradual fun _ => (abides_get gradual).bind gradual
        fun _ => ?_
      have last : Abides relation (do
          let results ← ofState (·.childrenAt parent
            ((List.range' index (first :: rest).length).map .index))
          insist (results.head? == some c) .firstIsOther
          return results) :=
        (abides_ofState fun world => gradual.childrenAt world _ _).bind gradual fun _ =>
          (abides_insist gradual _ _).bind gradual fun _ => abides_pure gradual _
      split
      · exact (clears _).bind gradual fun _ => last
      · exact last

theorem abides_replaceMember (parent : CursorId) {name : SlotName} (writes : written name)
    (values : List Value) : Abides relation (replaceMember c parent name values) := by
  intro world
  match values with
  | [] =>
    exact gradual.trans (gradual.trans (gradual.drop world (world.value parent) writes)
      (gradual.forget _ parent name)) (gradual.clear _ mine .null)
  | [value] =>
    rw [replaceMember_single]
    have takes (start : World) : relation start (World.setValue
        { start with store := start.store.setMember (world.value parent) name.text value } c
        value) :=
      gradual.trans (gradual.put start _ value writes) (gradual.setValue _ value mine)
    show relation world (world.takeMember c parent name value)
    unfold takeMember
    split
    · exact takes world
    · exact gradual.trans (gradual.forgetAll world mine) (takes _)
  | first :: second :: rest => exact gradual.refl world

theorem replaceInStep_abides (writes : ∀ name, world.name? c = some name → written name)
    (parent : CursorId) (values : List Value) :
    relation world (ended (replaceInStep c parent values world)) := by
  rw [replaceInStep, run_bind, run_get]
  dsimp only
  cases named : world.name? c with
  | none => exact gradual.refl world
  | some name =>
    dsimp only
    cases world.store.contents? (world.value parent) with
    | none => exact gradual.refl world
    | some contents =>
      cases contents with
      | array items => exact abides_replaceElement gradual mine _ _ _ _ world
      | object members => exact abides_replaceMember gradual mine _ (writes name named) _ world

/-- Where a replacement starts, the views of its cursor are gone already. -/
theorem replace_abides_of_some {parent : CursorId} (living : world.parent? c = some parent)
    (writes : MayWrite written world c) (values : List Value) :
    relation (world.withoutViews c) (ended (replace c values world)) := by
  have named : ∀ name, (world.withoutViews c).name? c = some name → written name := by
    intro name bears
    rw [name?_withoutViews] at bears
    exact writes.1 name bears
  have inside : c < (world.withoutViews c).cursors.size := by
    rw [(alike_withoutViews world c).size]
    exact lt_size_of_above? (above?_of_parent? living)
  have repairs := repair_abides gradual named parent
  have renumbers : Renumbered c (world.withoutViews c)
      (ended (repair c parent (world.withoutViews c))) :=
    repair_abides (gradual_renumbered c) (fun _ _ => trivial) parent
  rw [replace_of_some living]
  cases outcome : repair c parent (world.withoutViews c) with
  | error _ mid =>
    rw [outcome] at repairs
    exact repairs
  | ok _ mid =>
    rw [outcome] at repairs renumbers
    refine gradual.trans repairs (replaceInStep_abides gradual mine ?_ parent values)
    intro name bears
    rcases (renumbers inside).2 with same | ⟨index, found⟩
    · exact named name (same.symm.trans bears)
    · cases found.symm.trans bears
      exact writes.2 index

theorem replace_abides (writes : MayWrite written world c) (values : List Value) :
    relation world (ended (replace c values world)) := by
  cases living : world.parent? c with
  | none =>
    rw [replace_of_none living]
    exact gradual.refl world
  | some parent =>
    exact gradual.trans (gradual.withoutViews world mine)
      (replace_abides_of_some gradual mine living writes values)

end Abides

end Action

/-- What holds along the small changes holds along every operation. -/
theorem Operation.abides {relation : World → World → Prop} {written : SlotName → Prop}
    (gradual : World.Gradual relation own written) (operation : Operation)
    (mine : ∀ {d}, ¬operation.Spares c d → own d) (writes : Action.MayWrite written world c) :
    relation world (ended (operation.run c world)) := by
  cases operation with
  | get name => exact gradual.child world c name
  | getIn names => exact gradual.descend world c names
  | shift => exact (Action.abides_shift gradual c).map _ world
  | unshift values => exact (Action.abides_unshift gradual c values).map _ world
  | push values => exact (Action.abides_push gradual c values).map _ world
  | pop => exact (Action.abides_pop gradual c).map _ world
  | insertAt index values => exact (Action.abides_insertAt gradual c index values).map _ world
  | insertBefore values =>
    have beside : Action.Abides relation (Action.insertBefore c values) :=
      (Action.abides_placeInArray gradual c).bind gradual fun _ => Action.abides_insertAt gradual _ _ _
    exact beside.map _ world
  | insertAfter values =>
    have beside : Action.Abides relation (Action.insertAfter c values) :=
      (Action.abides_placeInArray gradual c).bind gradual fun _ =>
        (Action.abides_insist gradual _ _).bind gradual fun _ => Action.abides_insertAt gradual _ _ _
    exact beside.map _ world
  | replace values =>
    have own : own c := mine fun spared => spared rfl
    rw [Operation.run, ended_map]
    exact Action.replace_abides gradual own writes values
  | replaceWith value =>
    have own : own c := mine fun spared => spared rfl
    rw [Operation.run, ended_map, Action.replaceWith_eq, ended_map]
    exact Action.replace_abides gradual own writes [value]
  | remove =>
    have own : own c := mine fun spared => spared rfl
    rw [Operation.run, ended_map, Action.remove_eq, ended_map]
    exact Action.replace_abides gradual own writes []

end CodeTree
