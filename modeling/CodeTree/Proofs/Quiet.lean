/-
What edits never touch. Whatever an edit does to values, names and kept children, it takes hold
of nothing and lets go of nothing, it enters no scope, a cursor still comes from the root that it
was reached from, and no cursor comes to remember a view that it did not remember before. Each of
the small changes that edits are made of is quiet in this sense, and so is everything that is
made of them.
-/

import CodeTree.Proofs.Frames
import CodeTree.Proofs.Runs

namespace CodeTree

variable {after before world : World} {c : CursorId}

namespace World

/-- From one world to another, handles and scopes stay, and views are lost at most. -/
structure Quiet (before after : World) : Prop where
  held : after.held = before.held
  scopes : after.scopes = before.scopes
  size : before.cursors.size ≤ after.cursors.size
  origin : ∀ {d}, d < before.cursors.size → after.origin d = before.origin d
  views : ∀ d, (after.cursor d).views = (before.cursor d).views ∨ (after.cursor d).views = .empty

theorem Quiet.refl (world : World) : Quiet world world :=
  ⟨rfl, rfl, Nat.le_refl _, fun _ => rfl, fun _ => .inl rfl⟩

theorem Quiet.trans {first second third : World} (left : Quiet first second)
    (right : Quiet second third) : Quiet first third where
  held := right.held.trans left.held
  scopes := right.scopes.trans left.scopes
  size := Nat.le_trans left.size right.size
  origin inside :=
    (right.origin (Nat.lt_of_lt_of_le inside left.size)).trans (left.origin inside)
  views d := by
    rcases right.views d with same | empty
    · rw [same]
      exact left.views d
    · exact .inr empty

theorem quiet_modifyCursor (world : World) (c : CursorId) {change : Cursor → Cursor}
    (origin : ∀ cursor, (change cursor).root = cursor.root)
    (views : ∀ cursor, (change cursor).views = cursor.views ∨ (change cursor).views = .empty) :
    Quiet world (world.modifyCursor c change) where
  held := rfl
  scopes := rfl
  size := Nat.le_of_eq (size_modifyCursor world c change).symm
  origin _ := field_modifyCursor Cursor.root world c _ origin
  views d := by
    rw [cursor_modifyCursor]
    split
    · rename_i both
      rw [both.1]
      exact views _
    · exact .inl rfl

theorem quiet_withStore (world : World) (store : Store) : Quiet world { world with store } :=
  ⟨rfl, rfl, Nat.le_refl _, fun _ => rfl, fun _ => .inl rfl⟩

section Changes

variable (world : World) (c : CursorId)

theorem quiet_keep (name : SlotName) (child : CursorId) : Quiet world (world.keep c name child) :=
  quiet_modifyCursor world c (fun _ => rfl) fun _ => .inl rfl

theorem quiet_forget (name : SlotName) : Quiet world (world.forget c name) :=
  quiet_modifyCursor world c (fun _ => rfl) fun _ => .inl rfl

theorem quiet_forgetAll : Quiet world (world.forgetAll c) :=
  quiet_modifyCursor world c (fun _ => rfl) fun _ => .inl rfl

theorem quiet_setValue (value : Value) : Quiet world (world.setValue c value) :=
  quiet_modifyCursor world c (fun _ => rfl) fun _ => .inl rfl

theorem quiet_rename (name : SlotName) : Quiet world (world.rename c name) :=
  quiet_modifyCursor world c (fun _ => rfl) fun _ => .inl rfl

end Changes

theorem quiet_addChild (world : World) (parent : CursorId) (name : SlotName) (value : Value) :
    Quiet world (world.addChild parent name value).2 := by
  have kept := quiet_keep world parent name world.cursors.size
  refine ⟨rfl, rfl, ?_, ?_, ?_⟩
  · rw [size_addChild]
    exact Nat.le_succ _
  · intro d inside
    rw [origin_addChild, if_neg (Nat.ne_of_lt inside)]
  · intro d
    rw [cursor_addChild]
    split
    · exact .inr rfl
    · exact kept.views d

/-- Whatever is written, and wherever. -/
theorem gradual_quiet : Gradual Quiet (fun _ => True) (fun _ => True) where
  refl := Quiet.refl
  trans := Quiet.trans
  items world _ _ := quiet_withStore world _
  put world _ _ _ _ := quiet_withStore world _
  drop world _ _ _ := quiet_withStore world _
  keep := quiet_keep
  forget := quiet_forget
  move world c _ := quiet_rename world c _
  addChild := quiet_addChild
  forgetAll world c _ := quiet_forgetAll world c
  setValue world c value _ := quiet_setValue world c value
  withoutViews world c _ := quiet_modifyCursor world c (fun _ => rfl) fun _ => .inr rfl

theorem quiet_child (world : World) (c : CursorId) (name : SlotName) :
    Quiet world (world.child c name).2 := gradual_quiet.child world c name

end World

namespace Action

open World

variable {α β : Type}

/-- An action that is quiet, whichever way it ends. -/
def IsQuiet (action : Action α) : Prop := Abides Quiet action

theorem isQuiet_pure (result : α) : IsQuiet (pure result : Action α) :=
  abides_pure gradual_quiet result

theorem isQuiet_get : IsQuiet (get : Action World) := abides_get gradual_quiet

theorem isQuiet_ofState {run : World → α × World} (quiet : ∀ world, Quiet world (run world).2) :
    IsQuiet (ofState run) := quiet

theorem IsQuiet.bind {action : Action α} {next : α → Action β} (first : IsQuiet action)
    (second : ∀ result, IsQuiet (next result)) : IsQuiet (action >>= next) :=
  Abides.bind gradual_quiet first second

theorem IsQuiet.map {action : Action α} (quiet : IsQuiet action) (change : α → β) :
    IsQuiet (change <$> action) := Abides.map quiet change

/-- Wherever a cursor stands, it may write. -/
theorem mayWrite_anything (world : World) (c : CursorId) : MayWrite (fun _ => True) world c :=
  ⟨fun _ _ => trivial, fun _ => trivial⟩

/-- A replacement starts by forgetting the views of its cursor. -/
theorem quiet_replace_of_some {parent : CursorId} (living : world.parent? c = some parent)
    (values : List Value) : Quiet (world.withoutViews c) (ended (replace c values world)) :=
  replace_abides_of_some gradual_quiet trivial living (mayWrite_anything world c) values

theorem isQuiet_replace (c : CursorId) (values : List Value) : IsQuiet (replace c values) :=
  fun world => replace_abides gradual_quiet trivial (mayWrite_anything world c) values

theorem isQuiet_replaceWith (c : CursorId) (value : Value) : IsQuiet (replaceWith c value) := by
  rw [replaceWith_eq]
  exact (isQuiet_replace c _).map _

theorem isQuiet_remove (c : CursorId) : IsQuiet (remove c) := by
  rw [remove_eq]
  exact (isQuiet_replace c _).map _

end Action

/-- Operations are quiet. -/
theorem Operation.isQuiet_run (operation : Operation) (c : CursorId) :
    Action.IsQuiet (operation.run c) := fun world =>
  operation.abides World.gradual_quiet (fun _ => trivial) (Action.mayWrite_anything world c)

namespace World

/-- No cursor remembers a view. -/
def Viewless (world : World) : Prop := ∀ c, (world.cursor c).views = .empty

theorem Quiet.viewless (quiet : Quiet before after) (viewless : Viewless before) :
    Viewless after := by
  intro c
  rcases quiet.views c with same | empty
  · rw [same]
    exact viewless c
  · exact empty

/-- What is held, or the root of something held, stays so. -/
theorem Quiet.isHeld (quiet : Quiet before after) (sound : Sound before)
    (held : before.isHeld c = true) : after.isHeld c = true := by
  obtain ⟨handle, member, holds⟩ := List.any_eq_true.mp held
  refine List.any_eq_true.mpr ⟨handle, quiet.held ▸ member, ?_⟩
  have same : (after.cursor handle).root = (before.cursor handle).root :=
    quiet.origin (sound.held member)
  rw [same]
  exact holds

/-- A root is held if anything is that was reached from it. -/
theorem Coherent.isHeld_root {root : CursorId} (coherent : Coherent root world)
    {path : List SlotName} (leads : world.follow? root path = some c) (held : c ∈ world.held) :
    world.isHeld root = true := by
  have origin : (world.cursor c).root = root :=
    (coherent.sound.origin_of_follow leads).trans
      (coherent.sound.topmost coherent.present coherent.top)
  exact List.any_eq_true.mpr ⟨c, held, by simp [origin]⟩

theorem isAlive_of_isHeld (held : world.isHeld c = true) : world.isAlive c = true := by
  rw [isAlive, held, Bool.true_or]

theorem Run.viewless (run : Run world) : Viewless world := by
  induction run with
  | start scopes _ _ =>
    rintro (_ | c)
    · rfl
    · rfl
  | asked c operation _ _ _ viewless => exact (operation.isQuiet_run c _).viewless viewless
  | handles held _ _ viewless => exact viewless
  | elsewhere store _ _ viewless => exact viewless

end World

end CodeTree
