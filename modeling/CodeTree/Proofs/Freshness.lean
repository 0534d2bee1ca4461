/-
Views stay true along every run over one tree. An edit clears the views of the cursor that it
replaces and of no other, though what others remember depends on all that is above them. Still
nothing false is remembered where it could be asked for. The cursors below one that takes another
value are let go, and what is let go of is never kept again. As long as no edit goes through a
cursor that is named `type`, no value changes its type, and so the cursors that remain to be reached
have around them what they had.
-/

import CodeTree.Proofs.Felling
import CodeTree.Proofs.Loading

namespace CodeTree

variable {after before world : World} {store : Store} {c d parent : CursorId} {path : List SlotName}
  {operation : Operation} {name : SlotName}

/-- An operation spares every cursor, unless it replaces what stands in its own cursor's slot. -/
theorem Operation.replaces (taken : ¬operation.Spares c d) :
    d = c ∧ ∀ world, ended (operation.run c world) =
      ended (Action.replace c operation.inserted world) := by
  cases operation with
  | replace values => exact ⟨Classical.not_not.mp taken, fun world => ended_map _ _ _⟩
  | replaceWith value =>
    refine ⟨Classical.not_not.mp taken, fun world => ?_⟩
    rw [run, ended_map, Action.replaceWith_eq, ended_map, inserted]
  | remove =>
    refine ⟨Classical.not_not.mp taken, fun world => ?_⟩
    rw [run, ended_map, Action.remove_eq, ended_map, inserted]
  | _ => exact absurd trivial taken

/-! ### Edits that leave types alone -/

/-- An index is spelled with digits. -/
theorem SlotName.text_ne_type (other : name ≠ .key "type") : name.text ≠ "type" := by
  intro same
  cases name with
  | key characters => exact other (congrArg key same)
  | index position =>
    have spelled : Nat.toDigits 10 position = "type".toList := by
      have listed := congrArg String.toList same
      rwa [text, Nat.toString_eq_ofList_toDigits, String.toList_ofList] at listed
    have member : 't' ∈ Nat.toDigits 10 position := by
      rw [spelled]
      decide
    exact absurd (Nat.isDigit_of_mem_toDigits (by decide) (by decide) member) (by decide)

namespace Store

variable {change : Assoc String Value → Assoc String Value}

theorem members?_modifyItems (store : Store) (array value : Value)
    (change : List Value → List Value) :
    (store.modifyItems array change).members? value = store.members? value := by
  by_cases same : value = array
  · subst same
    cases value with
    | composite id =>
      simp only [members?, contents?, modifyItems, Array.getElem?_modify, if_true]
      cases store.composites[id]? with
      | none => rfl
      | some contents => cases contents <;> rfl
    | _ => rfl
  · rw [members?, contents?_modifyItems_other store same, members?]

theorem get?_modifyMembers (store : Store) (object value : Value) {key : String}
    (keeps : ∀ members, (change members).get? key = members.get? key) :
    (store.modifyMembers object change).member value key = store.member value key := by
  by_cases same : value = object
  · subst same
    cases value with
    | composite id =>
      simp only [member, members?, contents?, modifyMembers, Array.getElem?_modify, if_true]
      cases store.composites[id]? with
      | none => rfl
      | some contents =>
        cases contents with
        | array items => rfl
        | object members =>
          simp only [Option.map_some, Option.bind_some, keeps]
    | _ => rfl
  · rw [member, members?, contents?_modifyMembers_other store same, member, members?]

theorem type?_modifyItems (store : Store) (array value : Value) (change : List Value → List Value) :
    (store.modifyItems array change).type? value = store.type? value := by
  rw [type?, typeName?, member, members?_modifyItems, type?, typeName?, member]

theorem type?_modifyMembers (store : Store) (object value : Value)
    (keeps : ∀ members, (change members).get? "type" = members.get? "type") :
    (store.modifyMembers object change).type? value = store.type? value := by
  rw [type?, typeName?, get?_modifyMembers store object value keeps, type?, typeName?]

/-- What is no composite has no type, and a composite is the same only as itself. -/
theorem type?_of_same (store : Store) {value other : Value} (same : value.same other = true) :
    store.type? other = store.type? value ∧
      ((store.type? value).isSome = true → other = value) := by
  by_cases composite : ∃ id, value = .composite id
  · obtain ⟨id, rfl⟩ := composite
    cases Value.same_composite_left.mp same
    exact ⟨rfl, fun _ => rfl⟩
  · have plain {part : Value} (simple : ∀ id, part ≠ .composite id) : store.type? part = none := by
      cases part with
      | composite id => exact absurd rfl (simple id)
      | _ => rfl
    have none := plain fun id is => composite ⟨id, is⟩
    have others := plain fun id is => composite ⟨id, Value.same_composite_right.mp (is ▸ same)⟩
    rw [none, others]
    exact ⟨rfl, nofun⟩

end Store

namespace World

variable {spared : CursorId → Prop}

/-- From one world to another, cursors stay below the same cursors, certain of them remember the
same values, and values keep their types. -/
structure Calm (spared : CursorId → Prop) (before after : World) : Prop where
  size : before.cursors.size ≤ after.cursors.size
  above : ∀ {d}, d < before.cursors.size → after.above? d = before.above? d
  value : ∀ {d}, d < before.cursors.size → spared d → after.value d = before.value d
  type : ∀ value, after.store.type? value = before.store.type? value

theorem Alike.calm (alike : Alike before after) : Calm spared before after where
  size := Nat.le_of_eq alike.size.symm
  above _ := alike.above _
  value _ _ := alike.value _
  type _ := by rw [alike.store]

theorem calm_withStore (type : ∀ value, store.type? value = world.store.type? value) :
    Calm spared world { world with store } :=
  ⟨Nat.le_refl _, fun _ => rfl, fun _ _ => rfl, type⟩

theorem gradual_calm (spared : CursorId → Prop) :
    Gradual (Calm spared) (fun c => ¬spared c) (fun name => name ≠ .key "type") where
  refl world := (Alike.refl world).calm
  trans left right :=
    { size := Nat.le_trans left.size right.size
      above := fun inside =>
        (right.above (Nat.lt_of_lt_of_le inside left.size)).trans (left.above inside)
      value := fun inside free =>
        (right.value (Nat.lt_of_lt_of_le inside left.size) free).trans (left.value inside free)
      type := fun value => (right.type value).trans (left.type value) }
  items world array _ := calm_withStore fun value => world.store.type?_modifyItems array value _
  put world object name _ other := calm_withStore fun value =>
    world.store.type?_modifyMembers object value fun members => by
      rw [Assoc.get?_insert, if_neg (SlotName.text_ne_type other).symm]
  drop world object name other := calm_withStore fun value =>
    world.store.type?_modifyMembers object value fun members => by
      rw [Assoc.get?_erase, if_neg (SlotName.text_ne_type other).symm]
  keep world c name child := (alike_keep world c name child).calm
  forget world c name := (alike_forget world c name).calm
  move world c _ := (alike_rename world c _).calm
  addChild world parent name value :=
    { size := by
        rw [size_addChild]
        exact Nat.le_succ _
      above := fun inside => by rw [above?_addChild, if_neg (Nat.ne_of_lt inside)]
      value := fun inside _ => by rw [value_addChild, if_neg (Nat.ne_of_lt inside)]
      type := fun _ => rfl }
  forgetAll world c _ := (alike_forgetAll world c).calm
  setValue world c value mine :=
    { size := Nat.le_of_eq (size_modifyCursor world c _).symm
      above := fun _ => above?_setValue world c _ value
      value := fun {d} _ free =>
        value_setValue_other world (fun same : d = c => mine (same ▸ free)) value
      type := fun _ => rfl }
  withoutViews world c _ := (alike_withoutViews world c).calm

/-! ### Cursors that can be reached -/

/-- A cursor can be reached from the root through kept cursors. -/
def Reachable (world : World) (c : CursorId) : Prop := ∃ path, world.follow? 0 path = some c

theorem Reachable.child (reachable : world.Reachable parent)
    (kept : world.kept? parent name = some c) : world.Reachable c := by
  obtain ⟨path, leads⟩ := reachable
  exact ⟨path ++ [name], follow?_concat.mpr ⟨parent, leads, kept⟩⟩

/-- What can be reached below a cursor is kept by it. -/
theorem Coherent.kept_of_above? (coherent : Coherent 0 world) (reachable : world.Reachable c)
    (above : world.above? c = some parent) :
    world.Reachable parent ∧ ∃ name, world.kept? parent name = some c := by
  obtain ⟨path, leads⟩ := reachable
  rcases List.eq_nil_or_concat path with rfl | ⟨front, name, rfl⟩
  · cases leads
    rw [coherent.top] at above
    cases above
  · rw [List.concat_eq_append] at leads
    obtain ⟨keeper, toKeeper, kept⟩ := follow?_concat.mp leads
    have same : keeper = parent :=
      Option.some.inj ((coherent.sound.kept kept).1.symm.trans above)
    subst same
    exact ⟨⟨front, toKeeper⟩, name, kept⟩

theorem Coherent.reachable_of_mem_line (coherent : Coherent 0 world) (reachable : world.Reachable c)
    (member : d ∈ world.line c) :
    world.Reachable d ∧ (d ≠ c → ∃ e name, world.kept? d name = some e ∧ e ∈ world.line c) := by
  have sound := coherent.sound
  induction c using sound.line_induction with
  | up c ih =>
    cases above : world.above? c with
    | none =>
      rw [sound.line_eq c, above, Option.elim, List.mem_singleton] at member
      exact ⟨member ▸ reachable, fun different => absurd member different⟩
    | some parent =>
      obtain ⟨higher, name, kept⟩ := coherent.kept_of_above? reachable above
      rw [sound.line_of_above? above] at member ⊢
      rcases List.mem_cons.mp member with rfl | further
      · exact ⟨reachable, fun different => absurd rfl different⟩
      · obtain ⟨reached, below⟩ := ih above higher further
        refine ⟨reached, fun _ => ?_⟩
        by_cases same : d = parent
        · subst same
          exact ⟨c, name, kept, List.mem_cons_self⟩
        · obtain ⟨e, other, keeps, inLine⟩ := below same
          exact ⟨e, other, keeps, List.mem_cons_of_mem _ inLine⟩

/-- The origin of a cursor is that of every cursor that it climbs past. -/
theorem Sound.origin_of_mem_chain (sound : Sound world) (member : d ∈ world.chain c) :
    world.origin d = world.origin c := by
  induction c using sound.line_induction with
  | up c ih =>
    rw [sound.chain_eq c] at member
    rcases List.mem_cons.mp member with rfl | further
    · rfl
    · cases living : world.parent? c with
      | none =>
        rw [living] at further
        cases further
      | some parent =>
        rw [living] at further
        have above := above?_of_parent? living
        rw [ih above further, sound.rooted above]

/-- Where the root or the cursor is held, everything above what can be reached lives. -/
theorem Coherent.grounded (coherent : Coherent 0 world) (held : 0 ∈ world.held ∨ c ∈ world.held) :
    Grounded world.Reachable world c := by
  have sound := coherent.sound
  intro d member reachable parent above
  obtain ⟨higher, _⟩ := coherent.kept_of_above? reachable above
  refine ⟨higher, ?_⟩
  obtain ⟨path, leads⟩ := reachable
  have origin : (world.cursor c).root = 0 :=
    (sound.origin_of_mem_chain member).symm.trans ((sound.origin_of_follow leads).trans
      (sound.topmost coherent.present coherent.top))
  have root : world.isHeld 0 = true := by
    rcases held with here | there
    · exact List.any_eq_true.mpr ⟨0, here, by simp⟩
    · exact List.any_eq_true.mpr ⟨c, there, by simp [origin]⟩
  obtain ⟨front, toParent⟩ := higher
  exact sound.isAlive_of_follow (isAlive_of_isHeld root) toParent

/-! ### What an operation leaves alone -/

/-- What can be reached after an operation is new, or could be reached before. -/
theorem Settled.reachable_before (settled : Settled spared before after)
    (calm : Calm spared before after) (sound : Sound before)
    (own : ∀ {d}, ¬spared d → before.Reachable d) (reachable : after.Reachable d)
    (old : d < before.cursors.size) : before.Reachable d := by
  obtain ⟨path, leads⟩ := reachable
  refine follow?_induction (motive := fun _ d => d < before.cursors.size → before.Reachable d)
    (fun _ => ⟨[], rfl⟩) ?_ leads old
  intro _ parent name d _ kept reached old
  by_cases free : spared d
  · have above : before.above? d = some parent :=
      (calm.above old).symm.trans (settled.sound.kept kept).1
    -- A cursor that nobody kept would not be kept now.
    have keeps : ∃ keeper slot, before.kept? keeper slot = some d := by
      apply Classical.byContradiction
      intro none
      have forgotten : before.Forgotten d := ⟨old, fun keeper slot kept => none ⟨keeper, slot, kept⟩⟩
      exact (settled.leaves free forgotten).forgotten.unkept parent name kept
    obtain ⟨keeper, slot, keptBefore⟩ := keeps
    have same : keeper = parent := Option.some.inj ((sound.kept keptBefore).1.symm.trans above)
    subst same
    exact (reached (Nat.lt_trans (sound.older above) old)).child keptBefore
  · exact own free

/-- A cursor that is replaced keeps a value like its own, or it keeps no children. -/
theorem Coherent.replaced (coherent : Coherent 0 world) (leads : world.follow? 0 path = some c)
    (held : c ∈ world.held) {values : List Value} (proper : ∀ value ∈ values, value.isNaN = false)
    (fits : (ended (Action.replace c values world)).store.Fits) :
    let after := ended (Action.replace c values world)
    (∀ name, after.kept? c name = none) ∨ after.value c = world.value c ∨
      (world.value c).same (after.value c) = true := by
  have inside := coherent.sound.lt_size_of_follow coherent.present leads
  have responds := coherent.responds_replace leads held proper fits
  cases outcome : Action.replace c values world with
  | error halt after =>
    rw [outcome] at responds
    cases responds with
    | refused alike => exact .inr (.inl (alike.value c))
  | ok answer after =>
    rw [outcome] at responds
    cases responds with
    | @edited x toX taken emptied move new? _ _ reachable effect known =>
      by_cases takes : taken c
      · by_cases empties : emptied c
        · exact .inl (effect.empty empties).2
        · exact .inr (.inr (effect.still takes empties))
      · exact .inr (.inl (effect.value inside takes))

/-- An operation of a run is answered or refused, or nothing happens. -/
theorem Legal.ends (legal : Legal world c operation) (coherent : Coherent 0 world) :
    operation.Ends c world (ended (operation.run c world)) ∨
      ended (operation.run c world) = world := by
  rcases legal.cases coherent with responds | ⟨answer, after, result, _⟩ | ⟨_, result⟩
  · rcases responds.ends with ⟨answer, after, result⟩ | ⟨cause, after, result⟩
    · exact .inl (.inl ⟨answer, by rw [result]; rfl⟩)
    · exact .inl (.inr ⟨cause, by rw [result]; rfl⟩)
  · exact .inl (.inl ⟨answer, by rw [result]; rfl⟩)
  · exact .inr (by rw [result]; rfl)

section Asked

variable (legal : Legal world c operation) (coherent : Coherent 0 world)
  (untyped : world.name? c ≠ some (.key "type"))

include untyped in
theorem calm_of_untyped : Calm (operation.Spares c) world (ended (operation.run c world)) := by
  refine operation.abides (gradual_calm _) id ⟨?_, fun index => nofun⟩
  rintro name bears rfl
  exact untyped bears

/-- What an operation does not spare has no views afterwards, or nothing happened. -/
theorem views_of_not_spares (taken : ¬operation.Spares c d) :
    ((ended (operation.run c world)).cursor d).views = .empty ∨
      ended (operation.run c world) = world := by
  obtain ⟨rfl, replaced⟩ := Operation.replaces taken
  rw [replaced]
  cases living : world.parent? d with
  | none =>
    rw [Action.replace_of_none living]
    exact .inr rfl
  | some parent =>
    have inside := lt_size_of_above? (above?_of_parent? living)
    rcases (Action.quiet_replace_of_some living operation.inserted).views d with same | empty
    · rw [same, withoutViews, cursor_modifyCursor_self world inside]
      exact .inl rfl
    · exact .inl empty

include legal coherent untyped

/-- Around a cursor that an operation spares and leaves within reach, nothing changes. -/
theorem Legal.undisturbed (ends : operation.Ends c world (ended (operation.run c world)))
    (coherentAfter : Coherent 0 (ended (operation.run c world))) (free : operation.Spares c d)
    (old : d < world.cursors.size) (reachable : (ended (operation.run c world)).Reachable d) :
    world.Reachable d ∧ Undisturbed d world (ended (operation.run c world)) := by
  have sound := coherent.sound
  obtain ⟨path, leads⟩ := legal.reachable
  have inside := sound.lt_size_of_follow coherent.present leads
  have settled := ends.settled sound inside
  have calm : Calm (operation.Spares c) world _ := calm_of_untyped untyped
  have quiet := operation.isQuiet_run c world
  have own {e : CursorId} (taken : ¬operation.Spares c e) : world.Reachable e := by
    rw [(Operation.replaces taken).1]
    exact legal.reachable
  have before := settled.reachable_before calm sound own reachable old
  have line := line_congr fun e (below : e ≤ d) => calm.above (Nat.lt_of_le_of_lt below old)
  have unchanged {e : CursorId} (member : e ∈ world.line d) :
      (ended (operation.run c world)).typeAt? e = world.typeAt? e ∧
      ((world.typeAt? e).isSome = true →
        (ended (operation.run c world)).value e = world.value e) := by
    have type := calm.type
    by_cases spared : operation.Spares c e
    · obtain ⟨_, toE⟩ := (coherent.reachable_of_mem_line before member).1
      have same := calm.value (sound.lt_size_of_follow coherent.present toE) spared
      rw [typeAt?, typeAt?, type, same]
      exact ⟨rfl, fun _ => rfl⟩
    · -- The cursor that was replaced stands above one that is still within reach.
      obtain ⟨rfl, replaced⟩ := Operation.replaces spared
      have proper : ∀ value ∈ operation.inserted, value.isNaN = false :=
        fun value among => Store.NaNFree.self (legal.free value among)
      have outcome := coherent.replaced leads legal.held proper
        (by rw [← replaced]; exact legal.fits)
      rw [← replaced] at outcome
      rcases outcome with alone | same | same
      · have different : e ≠ d := fun same => spared (same ▸ free)
        obtain ⟨_, name, kept, _⟩ :=
          (coherentAfter.reachable_of_mem_line reachable (line ▸ member)).2 different
        rw [alone name] at kept
        cases kept
      · rw [typeAt?, typeAt?, type, same]
        exact ⟨rfl, fun _ => rfl⟩
      · rw [typeAt?, typeAt?, type]
        exact world.store.type?_of_same same
  refine ⟨before, line, fun e member => (unchanged member).1, fun e member => (unchanged member).2,
    ?_, fun _ => ?_⟩
  · rw [quiet.scopes]
  · rw [scope, quiet.scopes, scope]

/-- An operation leaves true what is remembered, wherever it leaves it within reach. -/
theorem Legal.fresh (coherentAfter : Coherent 0 (ended (operation.run c world)))
    (fresh : Fresh world.Reachable world) :
    Fresh (ended (operation.run c world)).Reachable (ended (operation.run c world)) := by
  rcases legal.ends coherent with ends | same
  · intro d reachable
    by_cases free : operation.Spares c d
    · rcases (operation.isQuiet_run c world).views d with same | empty
      · rw [same]
        by_cases old : d < world.cursors.size
        · obtain ⟨before, undisturbed⟩ :=
            legal.undisturbed coherent untyped ends coherentAfter free old reachable
          exact (fresh d before).transfer undisturbed
        · rw [views_of_size_le (Nat.le_of_not_lt old)]
          exact truthful_empty _ d
      · rw [empty]
        exact truthful_empty _ d
    · rcases views_of_not_spares free with empty | same
      · rw [empty]
        exact truthful_empty _ d
      · rw [same] at reachable ⊢
        exact fresh d reachable
  · rw [same]
    exact fresh

end Asked

/-! ### Runs with questions -/

theorem Glances.coherent (glances : Glances before after) (coherent : Coherent 0 before) :
    Coherent 0 after :=
  coherent.congr (glances.sound coherent.sound) glances.size glances.store (glances.above? 0)
    glances.value glances.kept?

/-- What is remembered at the cursors of a tree, which fit it, is true. -/
structure Mindful (world : World) : Prop where
  coherent : Coherent 0 world
  fresh : Fresh world.Reachable world

/-- The worlds of a run over one tree, in which no operation goes to a cursor named `type`, and in
which held cursors are asked for their enclosing nodes, parent nodes and scopes. -/
inductive ViewedRun : World → Prop where
  | start {store : Store} {value : Value} (scopes : Array Scope) :
      store.Unshared value → store.NaNFree value →
      ViewedRun (((⟨store, #[], scopes, []⟩ : World).addRoot value).2.hold 0)
  | asked {world : World} (c : CursorId) (operation : Operation) :
      ViewedRun world → Legal world c operation → world.name? c ≠ some (.key "type") →
      (ended (operation.run c world)).store.Unshared ((ended (operation.run c world)).value 0) →
      ViewedRun (ended (operation.run c world))
  | handles {world : World} (held : List CursorId) :
      ViewedRun world → (∀ c ∈ held, c < world.cursors.size) → ViewedRun { world with held }
  | elsewhere {world : World} (store : Store) :
      ViewedRun world →
      (∀ {path part}, world.store.part? (world.value 0) path = some part →
        store.contents? part = world.store.contents? part) →
      ViewedRun { world with store }
  | node {world : World} {c : CursorId} :
      ViewedRun world → 0 ∈ world.held ∨ c ∈ world.held → ViewedRun (world.node c).2
  | parent {world : World} {c : CursorId} :
      ViewedRun world → 0 ∈ world.held ∨ c ∈ world.held → ViewedRun (world.parentNode c).2
  | scope {world : World} {c : CursorId} :
      ViewedRun world → 0 ∈ world.held ∨ c ∈ world.held → ViewedRun (world.scopeAt c).2

namespace Mindful

variable (mindful : Mindful world)

include mindful

/-- Asking keeps the memories true. -/
theorem learned (learns : Learns world.Reachable world after) : Mindful after where
  coherent := learns.glances.coherent mindful.coherent
  fresh c reachable := by
    obtain ⟨path, leads⟩ := reachable
    rw [learns.glances.follow?] at leads
    exact learns.fresh c ⟨path, leads⟩

theorem handles {held : List CursorId} (inside : ∀ c ∈ held, c < world.cursors.size) :
    Mindful { world with held } where
  coherent := mindful.coherent.handles inside
  fresh c reachable := by
    obtain ⟨path, leads⟩ := reachable
    rw [follow?_withHeld] at leads
    refine (mindful.fresh c ⟨path, leads⟩).transfer ⟨?_, ?_, ?_, Nat.le_refl _, fun _ => rfl⟩
    · exact line_congr fun _ _ => rfl
    · exact fun _ _ => rfl
    · exact fun _ _ _ => rfl

theorem elsewhere (same : ∀ {path part}, world.store.part? (world.value 0) path = some part →
      store.contents? part = world.store.contents? part) : Mindful { world with store } where
  coherent := mindful.coherent.elsewhere same
  fresh c reachable := by
    obtain ⟨path, leads⟩ := reachable
    rw [follow?_withStore] at leads
    refine (mindful.fresh c ⟨path, leads⟩).transfer ⟨?_, ?_, ?_, Nat.le_refl _, fun _ => rfl⟩
    · exact line_congr fun _ _ => rfl
    · intro d member
      obtain ⟨front, toD⟩ := (mindful.coherent.reachable_of_mem_line ⟨path, leads⟩ member).1
      have contents : store.contents? (world.value d) = world.store.contents? (world.value d) := by
        cases here : world.value d with
        | composite id => exact same (mindful.coherent.part_of_follow toD here)
        | _ => rfl
      show store.type? (world.value d) = world.store.type? (world.value d)
      simp only [Store.type?, Store.typeName?, Store.member, Store.members?, contents]
    · exact fun _ _ _ => rfl

end Mindful

/-- Along every run with questions, the cursors fit the tree, and what they remember is true. -/
theorem ViewedRun.mindful (run : ViewedRun world) : Mindful world := by
  induction run with
  | start scopes unshared free =>
    refine ⟨coherent_start scopes unshared free, fun c _ => ?_⟩
    cases c with
    | zero => exact truthful_empty _ 0
    | succ c => exact truthful_empty _ (c + 1)
  | asked c operation _ legal untyped unshared mindful =>
    have coherentAfter : Coherent 0 (ended (operation.run c _)) :=
      legal.coherent mindful.coherent unshared
    exact ⟨coherentAfter, legal.fresh mindful.coherent untyped coherentAfter mindful.fresh⟩
  | handles held _ inside mindful => exact mindful.handles inside
  | elsewhere store _ same mindful => exact mindful.elsewhere same
  | node _ held mindful =>
    exact mindful.learned (node_spec mindful.coherent.sound mindful.fresh
      (mindful.coherent.grounded held)).1
  | parent _ held mindful =>
    exact mindful.learned (parentNode_spec mindful.coherent.sound mindful.fresh
      (mindful.coherent.grounded held)).1
  | scope _ held mindful =>
    exact mindful.learned (scopeAt_spec mindful.coherent.sound mindful.fresh
      (mindful.coherent.grounded held)).1

/-! ### Looking afresh -/

/-- The world, with nothing remembered. -/
def unviewed (world : World) : World := { world with cursors := world.cursors.map Cursor.unviewed }

theorem cursor_unviewed (world : World) (c : CursorId) :
    world.unviewed.cursor c = (world.cursor c).unviewed := by
  simp only [unviewed, cursor, Array.getElem?_map]
  cases world.cursors[c]? <;> rfl

theorem glances_unviewed (world : World) : Glances world world.unviewed where
  store := rfl
  held := rfl
  size := Array.size_map
  cursor c := by
    rw [cursor_unviewed]
    rfl
  scopes := Nat.le_refl _
  scope _ := rfl

theorem fresh_unviewed (here : CursorId → Prop) (world : World) : Fresh here world.unviewed := by
  intro c _
  rw [cursor_unviewed]
  exact truthful_empty _ c

/-! ### Views of the tree -/

section Tree

variable (coherent : Coherent 0 world) (leads : world.follow? 0 path = some c)

include coherent leads

/-- A cursor and those above it stand at the end of the cursor's path and at its fronts. -/
theorem Coherent.line_fronts : List.Forall₂ (fun d front => world.follow? 0 front = some d)
    (world.line c) (path :: Tree.fronts path) := by
  have sound := coherent.sound
  refine follow?_induction (motive := fun path c => List.Forall₂
    (fun d front => world.follow? 0 front = some d) (world.line c) (path :: Tree.fronts path))
    ?_ ?_ leads
  · rw [sound.line_eq, coherent.top]
    exact .cons rfl .nil
  · intro path parent name c toParent kept related
    rw [sound.line_of_above? (sound.kept kept).1, Tree.fronts_concat]
    exact .cons (follow?_concat.mpr ⟨parent, toParent, kept⟩) related

theorem Coherent.isNodeAt_eq : world.isNodeAt c = world.tree.nodeAt path :=
  (coherent.isOf_at leads .node).symm

/-- The enclosing node is the innermost of the nodes in the tree that the path leads through. -/
theorem Coherent.enclosing?_eq : world.enclosing? c =
    ((path :: Tree.fronts path).find? world.tree.nodeAt).bind
      (world.store.part? (world.value 0)) := by
  have related : Option.Rel (fun d front => world.follow? 0 front = some d)
      ((world.line c).find? world.isNodeAt)
      ((path :: Tree.fronts path).find? world.tree.nodeAt) :=
    rel_find? (fun _ _ leads => coherent.isNodeAt_eq leads) (coherent.line_fronts leads)
  rw [enclosing?]
  generalize found : (world.line c).find? world.isNodeAt = d? at related ⊢
  generalize (path :: Tree.fronts path).find? world.tree.nodeAt = front? at related ⊢
  cases related with
  | none => rfl
  | @some d front toD =>
    have node : world.isNodeAt d = true := List.find?_some found
    obtain ⟨own, typed⟩ := Store.exists_type node
    obtain ⟨id, _, here, _⟩ := Store.exists_members typed
    rw [Option.map_some, Option.bind_some, here, coherent.part_of_follow toD here]

/-- The node around it is the second of these, where its cursor stands. -/
theorem Coherent.second?_eq :
    world.second? c = (world.tree.parentNode? path).bind (world.follow? 0) := by
  have agree (d : CursorId) (front : List SlotName) (leads : world.follow? 0 front = some d) :
      world.isNodeAt d = world.tree.nodeAt front := coherent.isNodeAt_eq leads
  have filtered : List.Forall₂ (fun d front => world.follow? 0 front = some d)
      ((world.line c).filter world.isNodeAt)
      ((path :: Tree.fronts path).filter world.tree.nodeAt) :=
    List.rel_filter (fun d front leads => Bool.eq_iff_iff.mp (agree d front leads))
      (coherent.line_fronts leads)
  rw [second?, show world.tree.parentNode? path =
    ((path :: Tree.fronts path).filter world.tree.nodeAt)[1]? from
      (getElem?_one_filter_cons world.tree.nodeAt path (Tree.fronts path)).symm]
  generalize (world.line c).filter world.isNodeAt = ds at filtered ⊢
  generalize (path :: Tree.fronts path).filter world.tree.nodeAt = fronts at filtered ⊢
  cases filtered with
  | nil => rfl
  | cons _ rest =>
    cases rest with
    | nil => rfl
    | cons toD _ => exact toD.symm

end Tree

/-! ### Answers along a run -/

/-- Along every run with questions, at every cursor that can be reached: the enclosing node is the
value of the first node on the cursor's chain. The parent node is the next one further out, or,
where the cursor itself holds no node, the one after that. Both are what would be found if nothing
were remembered, and what the path of the cursor leads through in the tree as it is. -/
theorem views_true_along_runs {world : World} (run : ViewedRun world) {path : List SlotName}
    {c : CursorId} (leads : world.follow? 0 path = some c)
    (held : 0 ∈ world.held ∨ c ∈ world.held) :
    (world.node c).1 = ((world.chain c).find? world.isNodeAt).map world.value ∧
    (world.parentNode c).1 =
      (if world.isNodeAt c then (world.chain c).tail.find? world.isNodeAt
        else ((world.chain c).tail.filter world.isNodeAt)[1]?) ∧
    (world.node c).1 = (world.unviewed.node c).1 ∧
    (world.parentNode c).1 = (world.unviewed.parentNode c).1 ∧
    (world.node c).1 = ((path :: Tree.fronts path).find? world.tree.nodeAt).bind
      (world.store.part? (world.value 0)) ∧
    (world.parentNode c).1 = (world.tree.parentNode? path).bind (world.follow? 0) := by
  obtain ⟨coherent, fresh⟩ := run.mindful
  have sound := coherent.sound
  have grounded := coherent.grounded held
  have reachable : world.Reachable c := ⟨path, leads⟩
  have line := grounded.chain_eq_line sound reachable
  have nodeHere := (node_spec sound fresh grounded).2 reachable
  have parentHere := (parentNode_spec sound fresh grounded).2 reachable
  -- Asking again with nothing remembered.
  have glances := glances_unviewed world
  have groundedAfresh := glances.grounded grounded
  have nodeAfresh := (node_spec (glances.sound sound) (fresh_unviewed world.Reachable world)
    groundedAfresh).2 reachable
  have parentAfresh := (parentNode_spec (glances.sound sound)
    (fresh_unviewed world.Reachable world) groundedAfresh).2 reachable
  refine ⟨?_, ?_, ?_, ?_, ?_, ?_⟩
  · rw [nodeHere, enclosing?, line]
  · rw [parentHere, second?, ← line]
    obtain ⟨above, split⟩ : ∃ above, world.chain c = c :: above := ⟨_, chain.eq_1 world c⟩
    rw [split, List.tail_cons]
    cases node : world.isNodeAt c with
    | true =>
      rw [List.filter_cons_of_pos node, List.getElem?_cons_succ, ← List.head?_eq_getElem?,
        List.head?_filter, if_pos rfl]
    | false => rw [List.filter_cons_of_neg (by simp [node]), if_neg Bool.false_ne_true]
  · rw [nodeHere, nodeAfresh, (glances.undisturbed c).enclosing?]
  · rw [parentHere, parentAfresh, (glances.undisturbed c).second?]
  · rw [nodeHere, coherent.enclosing?_eq leads]
  · rw [parentHere, coherent.second?_eq leads]

/-- An identifier, and a program with the given body. -/
def programStore (body : Value) : Store :=
  ⟨#[.object (.ofList [("type", .text "Identifier"), ("name", .text "a")]),
    .object (.ofList [("type", .text "Program"), ("body", body)])]⟩

/-- Cursors at the program, at its body, and at the name of the identifier. The second keeps the
given children, and it and the third remember the given nodes. -/
def programWorld (body : Value) (children : List (SlotName × CursorId))
    (atBody atName : Option (Option Value)) : World :=
  ⟨programStore body, #[
    ⟨.composite 1, none, none, 0, .ofList [(.key "body", 1)], .empty⟩,
    ⟨body, some 0, some (.key "body"), 0, .ofList children, ⟨atBody, none, none⟩⟩,
    ⟨.text "a", some 1, some (.key "name"), 0, .empty, ⟨atName, none, none⟩⟩], #[], [0, 1, 2]⟩

/-- In a program whose body is an identifier, the cursor of the identifier's name is asked for the
node around it, and then the body is replaced by null. The cursor of the body has the program around
it now, while that of the name, out of reach, still remembers the identifier. -/
theorem views_true_after_replacement :
    ∃ world, ViewedRun world ∧ world.follow? 0 [.key "body"] = some 1 ∧
      (world.cursor 2).views.node? = some (some (.composite 0)) ∧
      (world.node 1).1 = some (.composite 1) ∧ (world.parentNode 1).1 = none := by
  have whole := (Store.loaded (.nodeOf .program [("body", .nameOf "a")]) (by decide)
    .empty).brings
  have identifier := (Store.loaded (.nameOf "a")
    (by decide) .empty).brings
  have bare := (Store.loaded (.nodeOf .program [("body", .null)]) (by decide)
    ⟨#[.object (.ofList [("type", .text "Identifier"), ("name", .text "a")])]⟩).brings
  have intact : (programStore (.composite 0)).Intact (.composite 1) :=
    whole.intact _ (List.mem_singleton_self _)
  have looked : ViewedRun (programWorld (.composite 0) [(.key "name", 2)] none none) := by
    refine ((ViewedRun.start #[] intact.unshared intact.free).asked 0
      (.getIn [.key "body", .key "name"]) ⟨⟨[], rfl⟩, by decide, ⟨?_, ?_, trivial⟩,
        List.forall_mem_nil _, whole.fits Store.fits_empty⟩ nofun intact.unshared).handles
      [0, 1, 2] (by decide)
    · intro items position _ named
      cases named
    · intro items position _ named
      cases named
  have asked : ViewedRun (programWorld (.composite 0) [(.key "name", 2)]
      (some (some (.composite 0))) (some (some (.composite 0)))) := by
    have answer : (programWorld (.composite 0) [(.key "name", 2)] none none).node 2 =
        (some (.composite 0), programWorld (.composite 0) [(.key "name", 2)]
          (some (some (.composite 0))) (some (some (.composite 0)))) := by
      with_unfolding_all rfl
    have viewed := looked.node (c := 2) (.inl (by decide))
    rwa [answer] at viewed
  have replaced : ViewedRun (programWorld .null [] none (some (some (.composite 0)))) := by
    have result : ended (Operation.run 1 (.replaceWith .null) (programWorld (.composite 0)
        [(.key "name", 2)] (some (some (.composite 0))) (some (some (.composite 0))))) =
        programWorld .null [] none (some (some (.composite 0))) := by with_unfolding_all rfl
    have edited := asked.asked 1 (.replaceWith .null)
      ⟨⟨[.key "body"], rfl⟩, by decide, trivial, ?_, ?_⟩ (by decide) ?_
    · rwa [result] at edited
    · exact List.forall_mem_singleton.mpr (Store.nanFree_of_plain rfl rfl)
    · rw [result]
      exact bare.fits (identifier.fits Store.fits_empty)
    · rw [result]
      exact (bare.intact _ (List.mem_singleton_self _)).unshared
  obtain ⟨_, _, _, _, node, parent⟩ :=
    @views_true_along_runs _ replaced [.key "body"] 1 rfl (.inl (by decide))
  refine ⟨_, replaced, rfl, rfl, node.trans ?_, parent.trans ?_⟩
  · decide +kernel
  · decide +kernel

end World

end CodeTree
