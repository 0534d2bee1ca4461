/-
Walking down the kept cursors. A path of names leads from a cursor to a cursor, through the
children that are kept on the way. Since nothing is kept twice, two paths never meet again,
and the way up from a cursor is the way down to it in reverse. This is why the names of a
cursor, read off on the way up, are the path that leads to it.
-/

import CodeTree.Proofs.Replacing

namespace CodeTree

variable {world : World} {name : SlotName}

namespace World

variable {path : List SlotName} {c start parent : CursorId}

/-- The cursor that a path of names leads to, through kept children only. -/
def follow? (world : World) (c : CursorId) : List SlotName → Option CursorId
  | [] => some c
  | name :: rest => (world.kept? c name).bind (fun child => world.follow? child rest)

theorem follow?_append (world : World) (c : CursorId) (path rest : List SlotName) :
    world.follow? c (path ++ rest) =
      (world.follow? c path).bind (fun d => world.follow? d rest) := by
  induction path generalizing c with
  | nil => rfl
  | cons name path ih =>
    simp only [List.cons_append, follow?, Option.bind_assoc, ih]

theorem follow?_concat {d : CursorId} :
    world.follow? c (path ++ [name]) = some d ↔
      ∃ parent, world.follow? c path = some parent ∧ world.kept? parent name = some d := by
  rw [follow?_append, Option.bind_eq_some_iff]
  simp only [follow?, Option.bind_fun_some]

/-- Paths are followed through kept children alone. -/
theorem follow?_congr {other : World} (same : ∀ c name, other.kept? c name = world.kept? c name)
    (c : CursorId) (path : List SlotName) : other.follow? c path = world.follow? c path := by
  induction path generalizing c with
  | nil => rfl
  | cons name rest ih => simp only [follow?, same, ih]

theorem follow?_withHeld (world : World) (held : List CursorId) (c : CursorId)
    (path : List SlotName) :
    ({ world with held } : World).follow? c path = world.follow? c path := by
  refine follow?_congr ?_ c path
  intro _ _
  rfl

theorem follow?_withStore (world : World) (store : Store) (c : CursorId) (path : List SlotName) :
    ({ world with store } : World).follow? c path = world.follow? c path := by
  refine follow?_congr ?_ c path
  intro _ _
  rfl

/-- What holds at the start and is passed on from a cursor to its children holds wherever paths
lead. -/
theorem follow?_induction {motive : List SlotName → CursorId → Prop} (here : motive [] start)
    (down : ∀ {path parent name c}, world.follow? start path = some parent →
      world.kept? parent name = some c → motive path parent → motive (path ++ [name]) c)
    (leads : world.follow? start path = some c) : motive path c := by
  generalize counted : path.length = length
  induction length generalizing path c with
  | zero =>
    cases List.eq_nil_of_length_eq_zero counted
    cases leads
    exact here
  | succ length ih =>
    rcases List.eq_nil_or_concat path with rfl | ⟨path, name, rfl⟩
    · cases counted
    · rw [List.concat_eq_append] at leads counted ⊢
      obtain ⟨parent, toParent, kept⟩ := follow?_concat.mp leads
      refine down toParent kept (ih toParent ?_)
      simpa using counted

/-! ### Paths part for good -/

section Sound

variable (sound : Sound world)

include sound

theorem Sound.le_of_follow (leads : world.follow? start path = some c) : start ≤ c := by
  refine follow?_induction (motive := fun _ c => start ≤ c) (Nat.le_refl start) ?_ leads
  intro _ parent _ c _ kept smaller
  exact Nat.le_trans smaller (Nat.le_of_lt (sound.lt_of_kept kept))

theorem Sound.lt_size_of_follow (inside : start < world.cursors.size)
    (leads : world.follow? start path = some c) : c < world.cursors.size := by
  refine follow?_induction (motive := fun _ c => c < world.cursors.size) inside ?_ leads
  intro _ _ _ _ _ kept _
  exact (sound.kept kept).2.2

/-- Only one path leads to a cursor. -/
theorem Sound.follow_unique {other : List SlotName} (first : world.follow? start path = some c)
    (second : world.follow? start other = some c) : path = other := by
  refine follow?_induction
    (motive := fun path c => ∀ {other}, world.follow? start other = some c → path = other)
    ?_ ?_ first second
  · intro other leads
    rcases List.eq_nil_or_concat other with rfl | ⟨front, name, rfl⟩
    · rfl
    · rw [List.concat_eq_append] at leads
      obtain ⟨parent, toParent, kept⟩ := follow?_concat.mp leads
      exact absurd (sound.le_of_follow toParent) (Nat.not_le_of_lt (sound.lt_of_kept kept))
  · intro front parent name c toParent kept unique other leads
    rcases List.eq_nil_or_concat other with rfl | ⟨otherFront, otherName, rfl⟩
    · cases leads
      exact absurd (sound.le_of_follow toParent) (Nat.not_le_of_lt (sound.lt_of_kept kept))
    · rw [List.concat_eq_append] at leads ⊢
      obtain ⟨otherParent, toOther, otherKept⟩ := follow?_concat.mp leads
      obtain ⟨rfl, rfl⟩ := sound.kept_unique kept otherKept
      rw [unique toOther]

/-! ### The way up -/

omit sound in
theorem parent?_of_above? (above : world.above? c = some parent)
    (alive : world.isAlive parent = true) : world.parent? c = some parent := by
  have remembered : (world.cursor c).parent? = some parent := above
  rw [parent?, remembered]
  exact if_pos alive

/-- Climbing from a cursor to its parent leads to an older one, so that nothing cuts it short. -/
theorem Sound.chain_eq (c : CursorId) :
    world.chain c = c :: (world.parent? c).elim [] world.chain := by
  rw [chain]
  cases living : world.parent? c with
  | none => rfl
  | some parent =>
    dsimp only [Option.elim]
    rw [if_pos (sound.older (above?_of_parent? living))]

/-- A kept child lives as long as its keeper. -/
theorem Sound.isAlive_of_kept (kept : world.kept? parent name = some c)
    (alive : world.isAlive parent = true) : world.isAlive c = true := by
  have above : (world.cursor c).parent? = some parent := (sound.kept kept).1
  have keeps : world.keeps parent c = true :=
    List.any_eq_true.mpr ⟨_, Assoc.mem_entries.mpr kept, beq_self_eq_true c⟩
  rw [isAlive, above]
  simp only [if_pos (sound.lt_of_kept kept), keeps, alive, Bool.and_true, Bool.or_true]

theorem Sound.isAlive_of_follow (alive : world.isAlive start = true)
    (leads : world.follow? start path = some c) : world.isAlive c = true := by
  refine follow?_induction (motive := fun _ c => world.isAlive c = true) alive ?_ leads
  intro _ _ _ _ _ kept aliveParent
  exact sound.isAlive_of_kept kept aliveParent

theorem Sound.origin_of_follow (leads : world.follow? start path = some c) :
    world.origin c = world.origin start := by
  refine follow?_induction (motive := fun _ c => world.origin c = world.origin start) rfl ?_ leads
  intro _ _ _ _ _ kept same
  rw [sound.rooted (sound.kept kept).1, same]

section Root

variable {root : CursorId} (top : world.above? root = none)

include top

/-- A root lives while it is held, or anything that was reached from it. -/
theorem Sound.isAlive_root (inside : root < world.cursors.size)
    (leads : world.follow? root path = some c) (held : root ∈ world.held ∨ c ∈ world.held) :
    world.isAlive root = true := by
  have origin : (world.cursor c).root = root :=
    (sound.origin_of_follow leads).trans (sound.topmost inside top)
  have isHeld : world.isHeld root = true := by
    rcases held with here | there
    · exact List.any_eq_true.mpr ⟨root, here, by simp⟩
    · exact List.any_eq_true.mpr ⟨c, there, by simp [origin]⟩
  rw [isAlive, isHeld, Bool.true_or]

/-- The names read off on the way up are the path on the way down. -/
theorem Sound.names_of_follow (alive : world.isAlive root = true)
    (leads : world.follow? root path = some c) : world.names c = path := by
  refine follow?_induction (motive := fun path c => world.names c = path) ?_ ?_ leads
  · have orphan : world.parent? root = none := by
      have absent : (world.cursor root).parent? = none := top
      rw [parent?, absent]
    simp [names, sound.chain_eq root, orphan, sound.name?_of_topmost top]
  · intro path parent name c toParent kept reads
    obtain ⟨above, bears, _⟩ := sound.kept kept
    have living := parent?_of_above? above (sound.isAlive_of_follow alive toParent)
    rw [names, sound.chain_eq c, living, Option.elim, List.reverse_cons, List.filterMap_append,
      ← names, reads]
    simp [bears]

end Root

end Sound

end World

end CodeTree
