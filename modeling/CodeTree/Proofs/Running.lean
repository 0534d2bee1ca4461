/-
Running an action, one equation for each way in which actions are put together. With them a
proof about an action follows the action's own text: what it does first, in which world the
rest of it runs, and where it may stop.
-/

import CodeTree.Cursor.Replace

namespace CodeTree

section State

variable {ε σ α : Type}

theorem get_apply (state : σ) : (EStateM.get : EStateM ε σ σ) state = .ok state state := rfl

theorem modifyGet_apply (change : σ → α × σ) (state : σ) :
    (EStateM.modifyGet change : EStateM ε σ α) state = .ok (change state).1 (change state).2 := rfl

end State

namespace Action

variable {α β : Type}

@[simp] theorem run_bind (action : Action α) (next : α → Action β) (world : World) :
    (action >>= next) world =
      match action world with
      | .ok result world => next result world
      | .error halt world => .error halt world := by
  show EStateM.bind action next world = _
  unfold EStateM.bind
  cases action world <;> rfl

@[simp] theorem run_map (change : α → β) (action : Action α) (world : World) :
    (change <$> action) world =
      match action world with
      | .ok result world => .ok (change result) world
      | .error halt world => .error halt world := by
  show EStateM.map change action world = _
  unfold EStateM.map
  cases action world <;> rfl

@[simp] theorem run_pure (result : α) (world : World) :
    (pure result : Action α) world = .ok result world := rfl

@[simp] theorem run_get (world : World) : (get : Action World) world = .ok world world := rfl

@[simp] theorem run_modify (change : World → World) (world : World) :
    (modify change : Action PUnit) world = .ok ⟨⟩ (change world) := rfl

@[simp] theorem run_refuse (cause : EditError) (world : World) :
    (refuse cause : Action α) world = .error (.error cause) world := rfl

@[simp] theorem run_ofState (run : World → α × World) (world : World) :
    ofState run world = .ok (run world).1 (run world).2 := rfl

theorem run_insist (condition : Bool) (cause : Fault) (world : World) :
    insist condition cause world =
      if condition then .ok () world else .error (.fault cause) world := by
  unfold insist
  split <;> rfl

@[simp] theorem run_insist_true (cause : Fault) (world : World) :
    insist true cause world = .ok () world := rfl

@[simp] theorem run_insist_false (cause : Fault) (world : World) :
    insist false cause world = .error (.fault cause) world := rfl

@[simp] theorem run_setItems (c : CursorId) (items : List Value) (world : World) :
    setItems c items world =
      .ok ⟨⟩ { world with store := world.store.modifyItems (world.value c) (fun _ => items) } := rfl

/-- Reading the array at a cursor changes nothing and is refused where there is none. -/
theorem run_arrayAt (c : CursorId) (world : World) :
    arrayAt c world =
      match world.store.items? (world.value c) with
      | some items => .ok items world
      | none => .error (.error (.notAnArray (world.shownName c))) world := by
  simp only [arrayAt, run_bind, run_get]
  cases world.store.items? (world.value c) <;> rfl

end Action

end CodeTree
