/-
Whole runs over one tree. A run starts with a root over an unshared value that is free of NaN.
Operations go to cursors that can be reached from the root, they bring in no NaN, they ask arrays
only for elements that they have, and they leave the tree unshared. In between, handles are
taken and dropped, and composites that are not in the tree may change, as they do when new
values are built. Along such a run the cursors fit the tree, and no operation ends with a fault,
but for one.
-/

import CodeTree.Proofs.Responses

namespace CodeTree

variable {world : World} {store : Store} {c : CursorId} {operation : Operation}

/-- The names that an operation asks for. -/
def Operation.asked : Operation → List SlotName
  | get name => [name]
  | getIn names => names
  | _ => []

namespace World

/-- An operation that a run may make. Indices are numbers of 64 bits, so that whatever the operation
does, arrays have fewer elements than there are indices. -/
structure Legal (world : World) (c : CursorId) (operation : Operation) : Prop where
  reachable : ∃ path, world.follow? 0 path = some c
  held : c ∈ world.held
  inRange : InRange world c operation.asked
  free : ∀ value ∈ operation.inserted, world.store.NaNFree value
  fits : (ended (operation.run c world)).store.Fits

/-- An operation to insert behind an element whose index is the last number that is an index. -/
def BehindLast (world : World) (c : CursorId) (operation : Operation) : Prop :=
  ∃ values index, operation = .insertAfter values ∧ world.name? c = some (.index index) ∧
    indexBound ≤ index + 1

/-- The worlds of a run over one tree, whose root is the first cursor. -/
inductive Run : World → Prop where
  | start {store : Store} {value : Value} (scopes : Array Scope) :
      store.Unshared value → store.NaNFree value →
      Run (((⟨store, #[], scopes, []⟩ : World).addRoot value).2.hold 0)
  | asked {world : World} (c : CursorId) (operation : Operation) :
      Run world → Legal world c operation →
      (ended (operation.run c world)).store.Unshared ((ended (operation.run c world)).value 0) →
      Run (ended (operation.run c world))
  | handles {world : World} (held : List CursorId) :
      Run world → (∀ c ∈ held, c < world.cursors.size) → Run { world with held }
  | elsewhere {world : World} (store : Store) :
      Run world →
      (∀ {path part}, world.store.part? (world.value 0) path = some part →
        store.contents? part = world.store.contents? part) →
      Run { world with store }

/-! ### Coherence along a run -/

theorem coherent_start {value : Value} (scopes : Array Scope) (unshared : store.Unshared value)
    (free : store.NaNFree value) :
    Coherent 0 (((⟨store, #[], scopes, []⟩ : World).addRoot value).2.hold 0) := by
  have sound : Sound (((⟨store, #[], scopes, []⟩ : World).addRoot value).2.hold 0) :=
    ((sound_bare store scopes).addRoot value).hold (by simp)
  refine ⟨sound, rfl, ?_, unshared, free, ?_⟩
  · exact Nat.zero_lt_one
  · intro path parent name c _ kept
    have unkept := (kept?_addRoot ⟨store, #[], scopes, []⟩ value parent name).symm.trans kept
    exact absurd (lt_size_of_kept? unkept) (Nat.not_lt_zero _)

namespace Coherent

variable (coherent : Coherent 0 world)

include coherent

theorem handles {held : List CursorId} (inside : ∀ c ∈ held, c < world.cursors.size) :
    Coherent 0 { world with held } := by
  have sound := coherent.sound
  exact coherent.congr
    ⟨sound.older, sound.named, sound.rooted, sound.topmost, sound.kept, inside _⟩ rfl rfl rfl
    (fun _ => rfl) fun _ _ => rfl

/-- What happens to composites that are not in the tree does not matter. -/
theorem elsewhere (spares : world.store.Spares store (world.value 0)) :
    Coherent 0 { world with store } := by
  refine ⟨coherent.sound.withStore store, coherent.top, coherent.present,
    spares.unshared coherent.unshared, spares.free coherent.free, ?_⟩
  · intro path parent name c leads kept
    rw [follow?_withStore] at leads
    have agrees := coherent.agrees leads kept
    have contents : store.contents? (world.value parent) =
        world.store.contents? (world.value parent) := by
      cases here : world.value parent with
      | composite id =>
        exact spares (coherent.part_of_follow leads here)
      | _ => rfl
    exact agrees.congr contents rfl

end Coherent

/-- An operation of a run makes an edit or is refused, or it only looks, or it inserts behind an
element at the last index. -/
theorem Legal.cases (legal : Legal world c operation) (coherent : Coherent 0 world) :
    Responds 0 world operation.inserted (operation.run c world) ∨
    (∃ answer after, operation.run c world = .ok answer after ∧ Coherent 0 after) ∨
    BehindLast world c operation ∧
      operation.run c world = .error (.fault .additionRange) world := by
  obtain ⟨path, leads⟩ := legal.reachable
  have held := legal.held
  have fits : (ended (operation.run c world)).store.Fits := legal.fits
  have inRange := legal.inRange
  have proper : ∀ value ∈ operation.inserted, value.isNaN = false :=
    fun value member => Store.NaNFree.self (legal.free value member)
  cases operation with
  | get name => exact Or.inr (Or.inl ⟨_, _, rfl, coherent.descend leads inRange⟩)
  | getIn names => exact Or.inr (Or.inl ⟨_, _, rfl, coherent.descend leads inRange⟩)
  | shift | unshift | push | pop | insertAt =>
    exact Or.inl (coherent.responds_edit leads rfl fits)
  | insertBefore values => exact Or.inl (coherent.responds_insertBefore leads held fits)
  | insertAfter values =>
    rcases coherent.responds_insertAfter leads held fits with
      responds | ⟨index, named, last, result⟩
    · exact Or.inl responds
    · exact Or.inr (Or.inr ⟨⟨values, index, rfl, named, last⟩, result⟩)
  | replace values =>
    rw [Operation.run, ended_map] at fits
    exact Or.inl ((coherent.responds_replace leads held proper fits).map _)
  | replaceWith value =>
    rw [Operation.run, ended_map, Action.replaceWith_eq, ended_map] at fits
    rw [Operation.run, Action.replaceWith_eq]
    exact Or.inl (((coherent.responds_replace leads held proper fits).map _).map _)
  | remove =>
    rw [Operation.run, ended_map, Action.remove_eq, ended_map] at fits
    rw [Operation.run, Action.remove_eq]
    exact Or.inl (((coherent.responds_replace leads held proper fits).map _).map _)

/-- To insert behind the last index is a fault. -/
theorem Legal.fault_of_behindLast (legal : Legal world c operation) (coherent : Coherent 0 world)
    (last : BehindLast world c operation) :
    operation.run c world = .error (.fault .additionRange) world := by
  obtain ⟨values, index, rfl, named, beyond⟩ := last
  obtain ⟨path, leads⟩ := legal.reachable
  rcases coherent.root_or_child leads legal.held with
    ⟨rfl, _, _⟩ | ⟨_, parent, name, _, _, _, _, living, bears⟩
  · rw [coherent.sound.name?_of_topmost coherent.top] at named
    cases named
  · rw [Operation.run, Action.run_map, Action.insertAfter_some living named,
      if_neg (Nat.not_lt_of_le beyond)]

/-- The cursors fit the tree after every operation of a run. -/
theorem Legal.coherent (legal : Legal world c operation) (coherent : Coherent 0 world)
    (unshared : (ended (operation.run c world)).store.Unshared
      ((ended (operation.run c world)).value 0)) : Coherent 0 (ended (operation.run c world)) := by
  rcases legal.cases coherent with
    responds | ⟨answer, after, result, coherentAfter⟩ | ⟨_, result⟩
  · exact responds.coherent coherent legal.free unshared
  · rw [result]
    exact coherentAfter
  · rw [result]
    exact coherent

/-- The cursors fit the tree along every run. -/
theorem Run.coherent (run : Run world) : Coherent 0 world := by
  induction run with
  | start scopes unshared free => exact coherent_start scopes unshared free
  | asked c operation _ legal unshared coherent => exact legal.coherent coherent unshared
  | handles held _ inside coherent => exact coherent.handles inside
  | elsewhere store _ same coherent => exact coherent.elsewhere same

/-- Along every run, a path of kept cursors is read off the cursor it leads to, and leads back to
it when it is stepped through; a kept child bears the name of its slot, agrees with it, and has
its keeper for a parent, whatever handles are left; and an operation is answered or refused, unless
it inserts behind an element whose index is the last one, which is a fault. -/
theorem cursors_fit_along_runs {world : World} (run : Run world) :
    (∀ {path c}, world.follow? 0 path = some c →
      ∀ held : List CursorId, (∀ d ∈ held, d < world.cursors.size) → 0 ∈ held ∨ c ∈ held →
        ({ world with held } : World).names c = path ∧
        ({ world with held } : World).descend 0 (({ world with held } : World).names c) =
          (c, { world with held })) ∧
    (∀ {path parent name c}, world.follow? 0 path = some parent →
      world.kept? parent name = some c →
        world.name? c = some name ∧
        (world.store.slot (world.value parent) name).same (world.value c) = true ∧
        ∀ held : List CursorId, (∀ d ∈ held, d < world.cursors.size) → 0 ∈ held ∨ c ∈ held →
          ({ world with held } : World).parent? c = some parent) ∧
    ∀ {c operation}, Legal world c operation →
      (¬BehindLast world c operation →
        (∃ answer after, operation.run c world = .ok answer after) ∨
        ∃ cause after, operation.run c world = .error (.error cause) after) ∧
      (BehindLast world c operation →
        operation.run c world = .error (.fault .additionRange) world) := by
  have coherent := run.coherent
  refine ⟨?_, ?_, ?_⟩
  · intro path c leads held inside kept
    have now := coherent.handles inside
    have leadsNow := (follow?_withHeld world held 0 path).trans leads
    have alive := now.sound.isAlive_root now.top now.present leadsNow kept
    have names := now.sound.names_of_follow now.top alive leadsNow
    refine ⟨names, ?_⟩
    rw [names]
    exact now.descend_of_follow (rfl : follow? _ 0 [] = some 0) leadsNow
  · intro path parent name c leads kept
    refine ⟨(coherent.sound.kept kept).2.1, (coherent.agrees leads kept).same, ?_⟩
    intro held inside some
    have now := coherent.handles inside
    have leadsNow := (follow?_withHeld world held 0 path).trans leads
    have leadsToChild : ({ world with held } : World).follow? 0 (path ++ [name]) = .some c :=
      follow?_concat.mpr ⟨parent, leadsNow, kept⟩
    have alive := now.sound.isAlive_root now.top now.present leadsToChild some
    exact parent?_of_above? (now.sound.kept kept).1 (now.sound.isAlive_of_follow alive leadsNow)
  · intro c operation legal
    refine ⟨fun other => ?_, legal.fault_of_behindLast coherent⟩
    rcases legal.cases coherent with responds | ⟨answer, after, result, _⟩ | ⟨last, _⟩
    · exact responds.ends
    · exact Or.inl ⟨answer, after, result⟩
    · exact absurd last other

/-- The start of a run over an array of primitives. -/
theorem Run.start_flat {items : List Value} (plain : ∀ item ∈ items, ∀ id, item ≠ .composite id)
    (proper : ∀ item ∈ items, item.isNaN = false) :
    Run ⟨⟨#[.array items]⟩, #[⟨.composite 0, none, none, 0, .empty, .empty⟩], #[], [0]⟩ := by
  refine Run.start #[] (Store.unshared_of_flat rfl plain) fun {path part} there => ?_
  rcases Store.part?_of_flat rfl
    (fun item member => Store.contents?_of_plain (plain item member)) there with ⟨_, rfl⟩ | member
  · rfl
  · exact proper part member

/-- The root of a run over an array is asked for an element. -/
theorem Run.element {items : List Value} {cursors : Array Cursor} {held : List CursorId}
    {position : Nat} (run : Run ⟨⟨#[.array items]⟩, cursors, #[], held⟩)
    (root : value ⟨⟨#[.array items]⟩, cursors, #[], held⟩ 0 = .composite 0) (alive : 0 ∈ held)
    (inside : position < items.length) (small : items.length < indexBound) :
    Run (child ⟨⟨#[.array items]⟩, cursors, #[], held⟩ 0 (.index position)).2 := by
  have inRange : InRange ⟨⟨#[.array items]⟩, cursors, #[], held⟩ 0 [.index position] := by
    refine ⟨fun {others place} array named => ?_, trivial⟩
    rw [root] at array
    cases array
    cases named
    exact inside
  refine run.asked 0 (.get (.index position)) ⟨⟨[], rfl⟩, alive, inRange, List.forall_mem_nil _, ?_⟩
    (run.coherent.child (rfl : follow? _ 0 [] = some 0) inRange.1).1.unshared
  show Store.Fits (child _ 0 _).2.store
  rw [store_child]
  exact Store.fits_of_one small

/-- In a run over an array of one null, a cursor is asked for at the last index of the null, moves
with it, and cannot insert behind itself. -/
theorem cursors_fit_below_null :
    ∃ world, Run world ∧ Legal world 2 (.insertAfter [.null]) ∧
      world.names 2 = [.index 1, .index 18446744073709551615] ∧
      Operation.run 2 (.insertAfter [.null]) world = .error (.fault .additionRange) world := by
  have unshared (items : List Value) (plain : ∀ item ∈ items, ∀ id, item ≠ .composite id) :
      Store.Unshared ⟨#[.array items]⟩ (.composite 0) := Store.unshared_of_flat rfl plain
  have start := @Run.start_flat [.null] (by simp) (by simp [Value.isNaN])
  have looked : Run ⟨⟨#[.array [.null]]⟩, #[
        ⟨.composite 0, none, none, 0, ⟨[(.index 0, 1)], by decide⟩, .empty⟩,
        ⟨.null, some 0, some (.index 0), 0, ⟨[(.index 18446744073709551615, 2)], by decide⟩,
          .empty⟩,
        ⟨.null, some 1, some (.index 18446744073709551615), 0, .empty, .empty⟩], #[], [0]⟩ := by
    refine start.asked 0 (.getIn [.index 0, .index 18446744073709551615])
      ⟨⟨[], rfl⟩, by decide, ⟨?_, ?_, trivial⟩, List.forall_mem_nil _,
        Store.fits_of_one (by decide)⟩
      (unshared [.null] (by simp))
    · intro items position array named
      cases array
      cases named
      exact Nat.one_pos
    · intro items position array
      cases array
  have moved : Run ⟨⟨#[.array [.bool true, .null]]⟩, #[
        ⟨.composite 0, none, none, 0, ⟨[(.index 1, 1)], by decide⟩, .empty⟩,
        ⟨.null, some 0, some (.index 1), 0, ⟨[(.index 18446744073709551615, 2)], by decide⟩,
          .empty⟩,
        ⟨.null, some 1, some (.index 18446744073709551615), 0, .empty, .empty⟩], #[], [0, 2]⟩ := by
    exact (looked.handles [0, 2] (by decide)).asked 0 (.unshift [.bool true])
      ⟨⟨[], rfl⟩, by decide, trivial,
        List.forall_mem_singleton.mpr (Store.nanFree_of_plain rfl rfl),
        Store.fits_of_one (by decide)⟩ (unshared [.bool true, .null] (by simp))
  obtain ⟨paths, parents, operations⟩ := cursors_fit_along_runs moved
  have living := (@parents [.index 1] 1 (.index 18446744073709551615) 2 rfl rfl).2.2 [0, 2]
    (by decide) (by decide)
  refine ⟨_, moved, ?legal, ?_, (operations ?legal).2 ⟨_, _, rfl, rfl, by decide⟩⟩
  · refine ⟨⟨[.index 1, .index 18446744073709551615], rfl⟩, by decide, trivial, ?_, ?_⟩
    · exact List.forall_mem_singleton.mpr (Store.nanFree_of_plain rfl rfl)
    · rw [Operation.run, ended_map, Action.insertAfter_some living rfl, if_neg (by decide)]
      exact Store.fits_of_one (by decide)
  · exact (@paths [.index 1, .index 18446744073709551615] 2 rfl [0, 2] (by decide) (by decide)).1

end World

end CodeTree
