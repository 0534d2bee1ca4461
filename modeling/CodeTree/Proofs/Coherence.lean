/-
Cursors that fit their tree. Below a root, every kept child agrees with its slot: the slot holds
the child's value, under the name that the slot goes by, and if it is an element, the array has
it. Away from these cursors nothing is asked; they may remember whatever they like.

An edit goes through one cursor of a container. It changes the contents of that container, it
rearranges the children of that cursor, and it may give one of the children another value. In an
unshared tree no other cursor stands at the same container, which is why all other cursors keep
fitting without having been told.
-/

import CodeTree.Proofs.Parts
import CodeTree.Proofs.Paths

namespace CodeTree

variable {path toX container moved : List SlotName} {c start d : CursorId}

variable {after : World} {root : CursorId} {id : CompositeId} {move : SlotName → Option SlotName}

/-- Where a path goes when the slots of the container at the end of another path move. A path
that does not lead through the container stays as it is. -/
def SlotName.movePath (move : SlotName → Option SlotName) :
    List SlotName → List SlotName → Option (List SlotName)
  | [], [] => some []
  | [], name :: rest => (move name).map (· :: rest)
  | _ :: _, [] => some []
  | first :: container, name :: rest =>
    if name = first then (movePath move container rest).map (name :: ·) else some (name :: rest)

theorem SlotName.movePath_self (move : SlotName → Option SlotName) (path : List SlotName) :
    movePath move path path = some path := by
  induction path with
  | nil => rfl
  | cons name rest ih => simp [movePath, ih]

theorem SlotName.movePath_append (move : SlotName → Option SlotName)
    (container : List SlotName) (name : SlotName) (rest : List SlotName) :
    movePath move container (container ++ name :: rest) =
      (move name).map fun target => container ++ target :: rest := by
  induction container with
  | nil => rfl
  | cons first container ih =>
    rw [List.cons_append, movePath, if_pos rfl, ih, Option.map_map]
    rfl

/-- A path leads through a slot of the container and moves with it, or it stays as it is. -/
theorem SlotName.movePath_cases (goes : movePath move container path = some moved) :
    (∃ name rest target, path = container ++ name :: rest ∧ move name = some target ∧
      moved = container ++ target :: rest) ∨
    (∀ other, movePath other container path = some path) ∧ moved = path ∧
      ∀ name rest, path ≠ container ++ name :: rest := by
  induction container generalizing path moved with
  | nil =>
    cases path with
    | nil =>
      cases goes
      exact Or.inr ⟨fun _ => rfl, rfl, nofun⟩
    | cons name rest =>
      obtain ⟨target, moves, rfl⟩ := Option.map_eq_some_iff.mp goes
      exact Or.inl ⟨name, rest, target, rfl, moves, rfl⟩
  | cons first container ih =>
    cases path with
    | nil =>
      cases goes
      exact Or.inr ⟨fun _ => rfl, rfl, nofun⟩
    | cons name rest =>
      rw [movePath] at goes
      split at goes
      · rename_i same
        subst same
        obtain ⟨onward, movesOn, rfl⟩ := Option.map_eq_some_iff.mp goes
        rcases ih movesOn with
          ⟨step, beyond, target, rfl, moves, rfl⟩ | ⟨anyway, rfl, away⟩
        · exact Or.inl ⟨step, beyond, target, rfl, moves, rfl⟩
        · refine Or.inr ⟨fun other => ?_, rfl, fun step beyond equal => ?_⟩
          · rw [movePath, if_pos rfl, anyway other]
            rfl
          · exact away step beyond (List.cons.inj equal).2
      · rename_i parts
        cases goes
        refine Or.inr ⟨fun other => ?_, rfl, fun step beyond equal => ?_⟩
        · rw [movePath, if_neg parts]
        · exact parts (List.cons.inj equal).1

/-- A path that does not lead through the slots of a container stays when these move. -/
theorem SlotName.movePath_of_away (away : ∀ name rest, path ≠ container ++ name :: rest) :
    movePath move container path = some path := by
  induction container generalizing path with
  | nil =>
    cases path with
    | nil => rfl
    | cons name rest => exact absurd rfl (away name rest)
  | cons first container ih =>
    cases path with
    | nil => rfl
    | cons name rest =>
      rw [movePath]
      split
      · rename_i same
        rw [@ih rest fun step beyond equal =>
          away step beyond (by rw [equal, same]; rfl)]
        rfl
      · rfl

namespace World

/-- A child agrees with the slot that it is kept for. -/
structure Agrees (world : World) (parent : CursorId) (name : SlotName) (c : CursorId) :
    Prop where
  same : (world.store.slot (world.value parent) name).same (world.value c) = true
  normal : world.store.normalName (world.value parent) name = name
  inside : ∀ {items position}, world.store.contents? (world.value parent) = some (.array items) →
    name = .index position → position < items.length

/-- A child agrees with a slot that shows what it showed, as long as it keeps its value. -/
theorem Agrees.congr {before : World} {parent : CursorId} {name : SlotName}
    (agrees : Agrees before parent name c) (contents : after.store.contents? (after.value parent) =
      before.store.contents? (before.value parent)) (child : after.value c = before.value c) :
    Agrees after parent name c where
  same := by
    rw [Store.slot_congr contents, child]
    exact agrees.same
  normal := (Store.normalName_congr contents name).trans agrees.normal
  inside array := agrees.inside (contents.symm.trans array)

/-- A child at a composite stands for what is in its slot. -/
theorem Agrees.inner? {parent : CursorId} {name : SlotName} (agrees : Agrees world parent name c)
    (here : world.value c = .composite id) :
    world.store.inner? (world.value parent) name = some (.composite id) := by
  refine Store.inner?_of_slot agrees.normal ?_
  rw [← Value.same_composite_right, ← here]
  exact agrees.same

theorem Agrees.inStep {parent : CursorId} {name : SlotName} (agrees : Agrees world parent name c)
    (sound : Sound world) (kept : world.kept? parent name = some c) : InStep world c parent name :=
  ⟨sound, (sound.kept kept).1, (sound.kept kept).2.1, kept, agrees.normal, agrees.same⟩

/-- The cursors below a root fit the tree, which is unshared and free of NaN. -/
structure Coherent (root : CursorId) (world : World) : Prop where
  sound : Sound world
  top : world.above? root = none
  present : root < world.cursors.size
  unshared : world.store.Unshared (world.value root)
  free : world.store.NaNFree (world.value root)
  agrees : ∀ {path parent name c}, world.follow? root path = some parent →
    world.kept? parent name = some c → Agrees world parent name c

namespace Coherent

variable {world : World} (coherent : Coherent root world)

include coherent

/-! ### Cursors and places -/

/-- A cursor at a composite stands where its path leads to in the tree. -/
theorem part_of_follow (leads : world.follow? root path = some c)
    (composite : world.value c = .composite id) :
    world.store.part? (world.value root) path = some (.composite id) := by
  refine follow?_induction (motive := fun path c => ∀ {id}, world.value c = .composite id →
    world.store.part? (world.value root) path = some (.composite id)) ?_ ?_ leads composite
  · intro id composite
    exact congrArg some composite
  · intro path parent name c toParent kept reaches id composite
    have entry := (coherent.agrees toParent kept).inner? composite
    obtain ⟨parentId, parentComposite⟩ := Store.exists_id_of_inner? entry
    refine Store.part?_concat.mpr ⟨_, reaches parentComposite, ?_⟩
    rw [← parentComposite]
    exact entry

/-- No two cursors stand at one composite. -/
theorem eq_of_value {other : List SlotName} (first : world.follow? root path = some c)
    (second : world.follow? root other = some d) (here : world.value c = .composite id)
    (there : world.value d = .composite id) : c = d := by
  have samePath := coherent.unshared (coherent.part_of_follow first here)
    (coherent.part_of_follow second there)
  rw [samePath, second] at first
  exact (Option.some.inj first).symm

/-- What a cursor shows in its slots is never NaN. -/
theorem slot_proper (leads : world.follow? root path = some c) (name : SlotName) :
    (world.store.slot (world.value c) name).isNaN = false := by
  cases contents : world.store.contents? (world.value c) with
  | none =>
    rw [Store.slot_of_none contents]
    rfl
  | some composite =>
    obtain ⟨id, here⟩ := Store.exists_id_of_contents? contents
    rw [here]
    exact Store.NaNFree.slot coherent.free (coherent.part_of_follow leads here) name

/-- Stepping through names that lead along kept cursors arrives at the cursor they lead to. -/
theorem descend_of_follow {rest : List SlotName} (toStart : world.follow? root path = some start)
    (leads : world.follow? start rest = some c) : world.descend start rest = (c, world) := by
  induction rest generalizing start path with
  | nil =>
    cases leads
    rfl
  | cons name rest ih =>
    obtain ⟨next, kept, onward⟩ := Option.bind_eq_some_iff.mp leads
    have agrees := coherent.agrees toStart kept
    rw [descend, child_of_kept kept agrees.normal agrees.same]
    exact ih (follow?_concat.mpr ⟨start, toStart, kept⟩) onward

/-- What cursors fit is told from the store, their values and the children that they keep. -/
theorem congr (sound : Sound after) (size : after.cursors.size = world.cursors.size)
    (store : after.store = world.store) (above : after.above? root = world.above? root)
    (value : ∀ c, after.value c = world.value c)
    (kept : ∀ c name, after.kept? c name = world.kept? c name) : Coherent root after := by
  have here (c : CursorId) :
      after.store.contents? (after.value c) = world.store.contents? (world.value c) := by
    rw [store, value]
  refine ⟨sound, above.trans coherent.top, ?_, ?_, ?_, ?_⟩
  · rw [size]
    exact coherent.present
  · rw [store, value]
    exact coherent.unshared
  · rw [store, value]
    exact coherent.free
  · intro path parent name c leads keptThere
    rw [follow?_congr kept] at leads
    rw [kept] at keptThere
    exact (coherent.agrees leads keptThere).congr (here parent) (value c)

/-- Taking and dropping handles, and looking at views, does not matter. -/
theorem of_alike (alike : Alike world after) (sound : Sound after)
    (kept : ∀ c name, after.kept? c name = world.kept? c name) : Coherent root after :=
  coherent.congr sound alike.size alike.store (alike.above root) alike.value kept

end Coherent

/-! ### Effects -/

/-- What an edit does through the cursor `x` of a container. The contents of the container
change. The children of `x` move, and new ones may come. Some children take another value, and
some of these let go of their own children. Everything else stays. -/
structure Effect (x : CursorId) (taken emptied : CursorId → Prop)
    (move : SlotName → Option SlotName) (new? : Option Composite) (before after : World) :
    Prop where
  sound : Sound after
  size : before.cursors.size ≤ after.cursors.size
  above : ∀ {d}, d < before.cursors.size → after.above? d = before.above? d
  written : after.store.contents? (before.value x) = new?
  contents : ∀ {value}, value ≠ before.value x →
    after.store.contents? value = before.store.contents? value
  value : ∀ {d}, d < before.cursors.size → ¬taken d → after.value d = before.value d
  below : ∀ {d}, taken d → before.above? d = some x
  still : ∀ {d}, taken d → ¬emptied d → (before.value d).same (after.value d) = true
  kept : ∀ {d}, d ≠ x → ¬emptied d → ∀ name, after.kept? d name = before.kept? d name
  empty : ∀ {d}, emptied d → taken d ∧ ∀ name, after.kept? d name = none
  survives : ∀ {name target d}, before.kept? x name = some d → move name = some target →
    after.kept? x target = some d
  entries : ∀ {target d}, after.kept? x target = some d →
    (before.cursors.size ≤ d ∨ ∃ name, before.kept? x name = some d) ∧ Agrees after x target d

namespace Effect

variable {x : CursorId} {taken emptied : CursorId → Prop} {new? : Option Composite} {before : World}
  (effect : Effect x taken emptied move new? before after) (coherent : Coherent root before)

include effect

/-- Where something is kept away from `x`, it was kept before, and nothing was emptied. -/
theorem kept_before {e : CursorId} {name : SlotName} (different : d ≠ x)
    (kept : after.kept? d name = some e) : ¬emptied d ∧ before.kept? d name = some e := by
  have full : ¬emptied d := fun empty => by
    rw [(effect.empty empty).2 name] at kept
    cases kept
  exact ⟨full, (effect.kept different full name).symm.trans kept⟩

/-- Paths after an edit lead to cursors that could be reached before, or to new ones. -/
theorem follow_before (reachable : before.follow? root toX = some x)
    (leads : after.follow? root path = some c) :
    before.cursors.size ≤ c ∨ ∃ old, before.follow? root old = some c := by
  refine follow?_induction
    (motive := fun _ c => before.cursors.size ≤ c ∨ ∃ old, before.follow? root old = some c)
    (Or.inr ⟨[], rfl⟩) ?_ leads
  intro path parent name c _ kept known
  by_cases here : parent = x
  · subst here
    rcases (effect.entries kept).1 with new | ⟨old, keptBefore⟩
    · exact Or.inl new
    · exact Or.inr ⟨toX ++ [old], follow?_concat.mpr ⟨parent, reachable, keptBefore⟩⟩
  · obtain ⟨_, keptBefore⟩ := effect.kept_before here kept
    rcases known with new | ⟨old, reached⟩
    · exact absurd (lt_size_of_kept? keptBefore) (Nat.not_lt_of_le new)
    · exact Or.inr ⟨old ++ [name], follow?_concat.mpr ⟨parent, reached, keptBefore⟩⟩

/-! ### Paths that survive an edit -/

/-- Away from the container, paths lead where they led. -/
theorem follow_away (sound : Sound before) (away : ∀ toX, before.follow? start toX ≠ some x)
    (full : emptied start → path = []) (leads : before.follow? start path = some c) :
    after.follow? start path = some c := by
  induction path generalizing start with
  | nil => exact leads
  | cons name rest ih =>
    obtain ⟨next, kept, onward⟩ := Option.bind_eq_some_iff.mp leads
    have different : start ≠ x := fun same => away [] (congrArg some same)
    refine Option.bind_eq_some_iff.mpr ⟨next, ?_, ?_⟩
    · rw [effect.kept different (fun empty => nomatch full empty)]
      exact kept
    · refine ih ?_ ?_ onward
      · intro toX reaches
        exact away (name :: toX) (Option.bind_eq_some_iff.mpr ⟨next, kept, reaches⟩)
      · intro empty
        have above := effect.below (effect.empty empty).1
        rw [(sound.kept kept).1] at above
        exact absurd (Option.some.inj above) different

/-- A path that moves with the slots of the container leads where it led, unless it leads
through a child that was emptied. -/
theorem follow_moved (sound : Sound before) {start c : CursorId} {toX path moved : List SlotName}
    (reachable : before.follow? start toX = some x) (leads : before.follow? start path = some c)
    (goes : SlotName.movePath move toX path = some moved)
    (full : ∀ {name rest d}, path = toX ++ name :: rest → before.kept? x name = some d →
      emptied d → rest = []) : after.follow? start moved = some c := by
  induction toX generalizing start path moved with
  | nil =>
    cases reachable
    cases path with
    | nil =>
      cases goes
      exact leads
    | cons name rest =>
      obtain ⟨target, moves, rfl⟩ := Option.map_eq_some_iff.mp goes
      obtain ⟨next, kept, onward⟩ := Option.bind_eq_some_iff.mp leads
      refine Option.bind_eq_some_iff.mpr ⟨next, effect.survives kept moves, ?_⟩
      refine effect.follow_away sound ?_ (full rfl kept) onward
      intro back reaches
      exact Nat.not_le_of_lt (sound.lt_of_kept kept) (sound.le_of_follow reaches)
  | cons first toX ih =>
    cases path with
    | nil =>
      cases goes
      exact leads
    | cons name rest =>
      obtain ⟨next, kept, onward⟩ := Option.bind_eq_some_iff.mp leads
      obtain ⟨toward, keptToward, reaches⟩ := Option.bind_eq_some_iff.mp reachable
      have older : start < x :=
        Nat.lt_of_lt_of_le (sound.lt_of_kept keptToward) (sound.le_of_follow reaches)
      have different : start ≠ x := Nat.ne_of_lt older
      -- What is emptied stands below the container, and the start does not.
      have filled : ¬emptied start := fun empty =>
        Nat.lt_asymm older (sound.older (effect.below (effect.empty empty).1))
      rw [SlotName.movePath] at goes
      split at goes
      · rename_i same
        subst same
        obtain ⟨onMoved, movesOn, rfl⟩ := Option.map_eq_some_iff.mp goes
        have met : toward = next := Option.some.inj (keptToward.symm.trans kept)
        subst met
        refine Option.bind_eq_some_iff.mpr ⟨toward, ?_, ?_⟩
        · rw [effect.kept different filled]
          exact kept
        · refine ih reaches onward movesOn ?_
          intro step beyond d through
          exact full (congrArg (name :: ·) through)
      · rename_i parts
        cases goes
        refine Option.bind_eq_some_iff.mpr ⟨next, ?_, ?_⟩
        · rw [effect.kept different filled]
          exact kept
        · refine effect.follow_away sound ?_ ?_ onward
          · intro back meets
            have onePath : name :: back = first :: toX := sound.follow_unique
              (Option.bind_eq_some_iff.mpr ⟨next, kept, meets⟩) reachable
            exact parts (List.cons.inj onePath).1
          · intro empty
            have above := effect.below (effect.empty empty).1
            rw [(sound.kept kept).1] at above
            exact absurd (Option.some.inj above) different

include coherent

/-- A reachable cursor other than `x` that keeps its children has the same contents as before. -/
theorem contents_elsewhere (reachable : before.follow? root toX = some x)
    (leads : before.follow? root path = some d) (different : d ≠ x) (full : ¬emptied d) :
    after.store.contents? (after.value d) = before.store.contents? (before.value d) := by
  have inside := coherent.sound.lt_size_of_follow coherent.present leads
  have unwritten {id : CompositeId} (here : before.value d = .composite id) :
      after.store.contents? (.composite id) = before.store.contents? (.composite id) := by
    refine effect.contents fun same => different ?_
    exact coherent.eq_of_value leads reachable here same.symm
  have same : after.value d = before.value d ∨
      (before.value d).same (after.value d) = true := by
    by_cases took : taken d
    · exact Or.inr (effect.still took full)
    · exact Or.inl (effect.value inside took)
  cases here : before.value d with
  | composite id =>
    have stays : after.value d = .composite id := by
      rcases same with equal | equal
      · rw [equal, here]
      · rw [here] at equal
        exact Value.same_composite_left.mp equal
    rw [stays]
    exact unwritten here
  | _ =>
    -- A primitive stays a primitive, and has no contents in any store.
    rw [here] at same
    cases stays : after.value d with
    | composite id =>
      rw [stays] at same
      rcases same with equal | equal <;> cases equal
    | _ => rfl

/-- An edit of a coherent world leaves it coherent, if the tree stays unshared and no NaN comes
in. -/
theorem coherent_after (reachable : before.follow? root toX = some x)
    (unshared : after.store.Unshared (after.value root))
    (free : after.store.NaNFree (after.value root)) : Coherent root after := by
  refine ⟨effect.sound, ?_, Nat.lt_of_lt_of_le coherent.present effect.size, unshared, free, ?_⟩
  · rw [effect.above coherent.present]
    exact coherent.top
  · intro path parent name c leads kept
    by_cases here : parent = x
    · subst here
      exact (effect.entries kept).2
    · obtain ⟨full, keptBefore⟩ := effect.kept_before here kept
      have inside := lt_size_of_kept? keptBefore
      rcases effect.follow_before reachable leads with new | ⟨old, reached⟩
      · exact absurd inside (Nat.not_lt_of_le new)
      · have agrees := coherent.agrees reached keptBefore
        have contents := effect.contents_elsewhere coherent reachable reached here full
        -- Only children of `x` take another value, and this child stands elsewhere.
        have sameChild : after.value c = before.value c := by
          refine effect.value (coherent.sound.kept keptBefore).2.2 fun took => here ?_
          have above := (coherent.sound.kept keptBefore).1
          rw [effect.below took] at above
          exact (Option.some.inj above).symm
        exact agrees.congr contents sameChild

end Effect

end World

end CodeTree
