/-
Several edits of one object in a row. Between them the tree may be out of order: a value that is
moved from one key to another stands under both for a moment. Each edit still has its effect, as
an effect asks nothing of the tree away from the container, and the effects of edits through one
cursor add up to one effect. So it is enough that the tree is in order at the end: when what
stands under each key has come from one slot of the object, no two keys have taken from one slot,
and only one key has received something new.
-/

import CodeTree.Proofs.Wholeness

namespace CodeTree

namespace Store

/-- A write leaves a value unshared, if the composites under each name stood below one slot of the
written composite, the slots of different names are different, and what did not stand in the value
before is under one name. -/
theorem Unshared.of_rearranged {before after : Store} {root : Value} {id : CompositeId}
    {place : List SlotName}
    (others : ∀ {other}, other ≠ .composite id → after.contents? other = before.contents? other)
    (unshared : before.Unshared root) (there : before.part? root place = some (.composite id))
    (source : SlotName → SlotName) (special : SlotName)
    (simple : ∀ {name part}, after.inner? (.composite id) name = some part → before.Unshared part)
    (drawn : ∀ {name part path inner}, after.inner? (.composite id) name = some part →
      before.part? part path = some (.composite inner) →
      (∃ rest, before.part? root (place ++ source name :: rest) = some (.composite inner)) ∨
        name = special ∧ ∀ other, before.part? root other ≠ some (.composite inner))
    (distinct : ∀ {name other part otherPart}, after.inner? (.composite id) name = some part →
      after.inner? (.composite id) other = some otherPart → source name = source other →
        name = other) : after.Unshared root := by
  refine @Unshared.of_write _ _ _ _ _ others unshared there ?_ ?_
  · intro name part path other inner entry reached stood
    rcases drawn entry reached with ⟨rest, came⟩ | ⟨_, nowhere⟩
    · exact ⟨source name, rest, unshared stood came⟩
    · exact absurd stood (nowhere other)
  · intro name other part otherPart path otherPath inner entry otherEntry reached otherReached
    have same : name = other := by
      rcases drawn entry reached with ⟨rest, came⟩ | ⟨named, nowhere⟩
      · rcases drawn otherEntry otherReached with ⟨otherRest, otherCame⟩ | ⟨_, nowhere⟩
        · have equal := List.append_cancel_left (unshared came otherCame)
          exact distinct entry otherEntry (List.cons.inj equal).1
        · exact absurd came (nowhere _)
      · rcases drawn otherEntry otherReached with ⟨_, otherCame⟩ | ⟨otherNamed, _⟩
        · exact absurd otherCame (nowhere _)
        · rw [named, otherNamed]
    subst same
    cases entry.symm.trans otherEntry
    exact ⟨rfl, simple entry reached otherReached⟩

end Store

namespace World

/-! ### Effects add up -/

/-- Two edits through one cursor have one effect together. -/
theorem Effect.trans {x : CursorId} {taken emptied taken' emptied' : CursorId → Prop}
    {move move' : SlotName → Option SlotName} {mid? new? : Option Composite}
    {before mid after : World} (first : Effect x taken emptied move mid? before mid)
    (second : Effect x taken' emptied' move' new? mid after) (sound : Sound before)
    (inside : x < before.cursors.size) :
    Effect x (fun d => taken d ∨ taken' d ∧ d < before.cursors.size)
      (fun d => emptied d ∨ emptied' d ∧ d < before.cursors.size)
      (fun name => (move name).bind move') new? before after := by
  have older {d : CursorId} (took : taken d) : x < d := sound.older (first.below took)
  have known {d : CursorId} (took : taken d) : d < before.cursors.size :=
    lt_size_of_above? (first.below took)
  have known' {d : CursorId} (lies : d < before.cursors.size) : d < mid.cursors.size :=
    Nat.lt_of_lt_of_le lies first.size
  have container : mid.value x = before.value x :=
    first.value inside fun took => Nat.lt_irrefl x (older took)
  constructor
  case sound => exact second.sound
  case size => exact Nat.le_trans first.size second.size
  case above => exact fun lies => (second.above (known' lies)).trans (first.above lies)
  case written =>
    rw [← container]
    exact second.written
  case contents =>
    intro value different
    refine (second.contents ?_).trans (first.contents different)
    rw [container]
    exact different
  case value =>
    intro d lies untaken
    exact (second.value (known' lies) fun took => untaken (.inr ⟨took, lies⟩)).trans
      (first.value lies fun took => untaken (.inl took))
  case below =>
    rintro d (took | ⟨took, lies⟩)
    · exact first.below took
    · rw [← first.above lies]
      exact second.below took
  case still =>
    intro d took full
    have lies : d < before.cursors.size := took.elim known And.right
    have full₁ : ¬emptied d := fun empty => full (.inl empty)
    have full₂ : ¬emptied' d := fun empty => full (.inr ⟨empty, lies⟩)
    by_cases took₁ : taken d
    · by_cases took₂ : taken' d
      · exact Value.same_trans (first.still took₁ full₁) (second.still took₂ full₂)
      · rw [second.value (known' lies) took₂]
        exact first.still took₁ full₁
    · have took₂ : taken' d := took.elim (fun took => absurd took took₁) And.left
      rw [← first.value lies took₁]
      exact second.still took₂ full₂
  case kept =>
    intro d different full name
    have full₁ : ¬emptied d := fun empty => full (.inl empty)
    by_cases empty : emptied' d
    · -- It was not there before, and keeps nothing now.
      have new : before.cursors.size ≤ d := Nat.not_lt.mp fun lies => full (.inr ⟨empty, lies⟩)
      rw [(second.empty empty).2, kept?_of_size_le before new]
    · exact (second.kept different empty name).trans (first.kept different full₁ name)
  case empty =>
    rintro d (empty | ⟨empty, lies⟩)
    · have took := (first.empty empty).1
      refine ⟨.inl took, fun name => ?_⟩
      by_cases again : emptied' d
      · exact (second.empty again).2 name
      · rw [second.kept (Nat.ne_of_gt (older took)) again]
        exact (first.empty empty).2 name
    · exact ⟨.inr ⟨(second.empty empty).1, lies⟩, (second.empty empty).2⟩
  case survives =>
    intro name target d kept goes
    obtain ⟨between, goesFirst, goesOn⟩ := Option.bind_eq_some_iff.mp goes
    exact second.survives (first.survives kept goesFirst) goesOn
  case entries =>
    intro target d kept
    obtain ⟨came, agrees⟩ := second.entries kept
    refine ⟨?_, agrees⟩
    rcases came with new | ⟨name, keptBetween⟩
    · exact .inl (Nat.le_trans first.size new)
    · exact (first.entries keptBetween).1

/-! ### Edits of an object -/

/-- From one world to another, the object at a cursor has come to have other members, and no
other composite has changed. -/
structure Reworked (x : CursorId) (members : Assoc String Value) (start now : World) : Prop where
  effect : ∃ taken emptied moves, Effect x taken emptied moves (some (.object members)) start now
  quiet : Quiet start now
  proper : ∀ {key value}, members.get? key = some value → value.isNaN = false

namespace Reworked

variable {start now : World} (orderly : Orderly start) {x : CursorId} {place : List SlotName}
  (leads : start.follow? 0 place = some x) {members : Assoc String Value}

include orderly leads

/-- Before the first edit. -/
theorem refl (present : start.store.contents? (start.value x) = some (.object members)) :
    Reworked x members start start := by
  have coherent := orderly.coherent
  refine ⟨⟨nobody, nobody, some, ?_⟩, Quiet.refl start, ?_⟩
  · rw [← present]
    exact Effect.none coherent.sound (coherent.agrees leads) fun goes => (Option.some.inj goes).symm
  · intro key value member
    have slot := coherent.slot_proper leads (.key key)
    rw [Store.slot_object present, SlotName.text, member] at slot
    exact slot

variable (reworked : Reworked x members start now)

include reworked

theorem value : now.value x = start.value x := by
  obtain ⟨_, _, _, effect⟩ := reworked.effect
  exact effect.value (orderly.inside leads) fun took =>
    Nat.lt_irrefl x (orderly.coherent.sound.older (effect.below took))

theorem present : now.store.contents? (now.value x) = some (.object members) := by
  obtain ⟨_, _, _, effect⟩ := reworked.effect
  rw [reworked.value orderly leads]
  exact effect.written

theorem follow : now.follow? 0 place = some x := by
  obtain ⟨_, _, _, effect⟩ := reworked.effect
  refine effect.follow_moved orderly.coherent.sound leads leads (SlotName.movePath_self _ _) ?_
  intro name rest d through
  simp at through

/-- At the top everything stays, unless it is what is edited. -/
theorem keepsTop (below : place ≠ []) : KeepsTop start now := by
  obtain ⟨_, _, _, effect⟩ := reworked.effect
  intro key d _ toD
  refine ⟨Nat.lt_of_lt_of_le (orderly.inside toD) effect.size, fun _ => ?_⟩
  have away (name : SlotName) (rest : List SlotName) : [.key key] ≠ place ++ name :: rest := by
    intro equal
    have length := congrArg List.length equal
    have long := List.length_pos_iff.mpr below
    simp only [List.length_append, List.length_cons, List.length_nil] at length
    omega
  exact effect.follow_moved orderly.coherent.sound leads toD (SlotName.movePath_of_away away)
    fun through => absurd through (away _ _)

theorem alive : now.isAlive x = true := by
  obtain ⟨_, _, _, effect⟩ := reworked.effect
  exact effect.sound.isAlive_of_follow
    (isAlive_of_isHeld (reworked.quiet.isHeld orderly.coherent.sound orderly.held))
    (reworked.follow orderly leads)

omit leads in
theorem fits : now.store.Fits := by
  intro value items array
  obtain ⟨_, _, _, effect⟩ := reworked.effect
  by_cases same : value = start.value x
  · rw [same, effect.written] at array
    cases array
  · rw [effect.contents same] at array
    exact orderly.fits array

/-- An edit more. -/
theorem then_effect {after : World} {altered : Assoc String Value}
    (edit : ∃ taken emptied moves, Effect x taken emptied moves (some (.object altered)) now after)
    (quiet : Quiet now after)
    (proper : ∀ {key value}, altered.get? key = some value → value.isNaN = false) :
    Reworked x altered start after := by
  obtain ⟨_, _, _, effect⟩ := reworked.effect
  obtain ⟨_, _, _, next⟩ := edit
  exact ⟨⟨_, _, _, effect.trans next orderly.coherent.sound (orderly.inside leads)⟩,
    reworked.quiet.trans quiet, proper⟩

/-- Asking for the slot of a key. -/
theorem ask (key : String) :
    Reworked x members start (now.child x (.key key)).2 ∧
      (now.child x (.key key)).2.kept? x (.key key) = some (now.child x (.key key)).1 := by
  have present := reworked.present orderly leads
  obtain ⟨_, _, _, effect⟩ := reworked.effect
  have slot : (now.store.slot (now.value x) (.key key)).isNaN = false := by
    rw [Store.slot_object present, SlotName.text]
    cases member : members.get? key with
    | none => rfl
    | some value => exact reworked.proper member
  obtain ⟨asked, kept⟩ := child_effect effect.sound (fun keptThere => (effect.entries keptThere).2)
    (Nat.lt_of_lt_of_le (orderly.inside leads) effect.size) slot (by
      intro items position array
      rw [present] at array
      cases array)
  rw [present] at asked
  rw [Store.normalName_object present, SlotName.text] at kept
  exact ⟨reworked.then_effect orderly leads ⟨_, _, _, asked⟩ (quiet_child now x _) reworked.proper,
    kept⟩

/-- An exchange at the slot of a key. -/
theorem exchange (key : String) (values : List Value) (few : values.length ≤ 1)
    (proper : ∀ value ∈ values, value.isNaN = false) {altered : Assoc String Value}
    (alters : (Composite.object members).exchange (.key key) values = .object altered) :
    ∃ cs after, Action.replace (now.child x (.key key)).1 values (now.child x (.key key)).2 =
        .ok cs after ∧
      ((∀ {other value}, altered.get? other = some value → value.isNaN = false) →
        Reworked x altered start after) := by
  obtain ⟨asked, kept⟩ := reworked.ask orderly leads key
  obtain ⟨_, _, _, effect⟩ := asked.effect
  obtain ⟨cs, after, result, ⟨taken, emptied, moves, replaced, _⟩, quiet, _⟩ :=
    replace_takes effect.sound (fun keptThere => (effect.entries keptThere).2) kept
      (asked.alive orderly leads) (asked.present orderly leads) ⟨⟨key, rfl⟩, few⟩ proper
      (asked.fits orderly) nofun
  rw [alters] at replaced
  exact ⟨cs, after, result, fun properAfter =>
    asked.then_effect orderly leads ⟨taken, emptied, moves, replaced⟩ quiet properAfter⟩

/-- Writing to a key. -/
theorem put (key : String) {value : Value} (proper : value.isNaN = false) :
    ∃ d after, Action.replaceWith (now.child x (.key key)).1 value (now.child x (.key key)).2 =
        .ok d after ∧ Reworked x (members.insert key value) start after := by
  obtain ⟨cs, after, result, written⟩ := reworked.exchange orderly leads key [value]
    (Nat.le_refl 1) (by simpa using proper) rfl
  refine ⟨_, after, by rw [Action.replaceWith_eq, Action.run_map, result], written ?_⟩
  intro other entry member
  rw [Assoc.get?_insert] at member
  split at member
  · cases member
    exact proper
  · exact reworked.proper member

/-- Removing a key. -/
theorem drop (key : String) :
    ∃ after, Action.remove (now.child x (.key key)).1 (now.child x (.key key)).2 = .ok () after ∧
      Reworked x (members.erase key) start after := by
  obtain ⟨cs, after, result, written⟩ := reworked.exchange orderly leads key []
    (Nat.zero_le 1) nofun rfl
  refine ⟨after, by rw [Action.remove_eq, Action.run_map, result], written ?_⟩
  intro other entry member
  rw [Assoc.get?_erase] at member
  split at member
  · cases member
  · exact reworked.proper member

/-! ### The tree at the end -/

/-- When every value has come from one slot of the object, the world is in order again, and the
tree has the new members at the place of the object. -/
theorem orderly_after {id : CompositeId} (here : start.value x = .composite id)
    (sources : List Value) (free : ∀ value ∈ sources, start.store.NaNFree value)
    (whole : ∀ value ∈ sources, start.store.Whole value) (source : String → String)
    (special : String)
    (known : ∀ {key part}, members.get? key = some part →
      part ∈ sources ∨ start.store.inner? (.composite id) (.key key) = some part)
    (simple : ∀ {key part}, members.get? key = some part → start.store.Unshared part)
    (drawn : ∀ {key part path inner}, members.get? key = some part →
      start.store.part? part path = some (.composite inner) →
      (∃ rest, start.store.part? (start.value 0) (place ++ .key (source key) :: rest) =
          some (.composite inner)) ∨
        key = special ∧ ∀ other, start.store.part? (start.value 0) other ≠ some (.composite inner))
    (distinct : ∀ {key other part otherPart}, members.get? key = some part →
      members.get? other = some otherPart → source key = source other → key = other) :
    Orderly now ∧ now.value 0 = start.value 0 ∧
      now.tree = start.tree.graft place ((Composite.object members).tree id start.store.tree) := by
  have coherent := orderly.coherent
  have fits : now.store.Fits := reworked.fits orderly
  have held := reworked.quiet.isHeld coherent.sound orderly.held
  obtain ⟨_, _, _, effect⟩ := reworked.effect
  have written := effect.written
  rw [here] at written
  have others {other : Value} (different : other ≠ .composite id) :
      now.store.contents? other = start.store.contents? other := by
    rw [← here] at different
    exact effect.contents different
  -- Only keys have anything under them.
  have keyed {name : SlotName} {part : Value}
      (entry : now.store.inner? (.composite id) name = some part) :
      ∃ key, name = .key key ∧ members.get? key = some part := by
    cases name with
    | index position => simp [Store.inner?, written] at entry
    | key key => exact ⟨key, rfl, (Store.inner?_object written key).symm.trans entry⟩
  have sameRoot : now.value 0 = start.value 0 := effect.value coherent.present fun took => by
    have above := effect.below took
    rw [coherent.top] at above
    cases above
  have there := coherent.part_of_follow leads here
  have unshared : now.store.Unshared (now.value 0) := by
    rw [sameRoot]
    refine @Store.Unshared.of_rearranged _ _ _ _ _ others coherent.unshared there
      (fun name => .key (source name.text)) (.key special) ?_ ?_ ?_
    · intro name part entry
      obtain ⟨key, rfl, member⟩ := keyed entry
      exact simple member
    · intro name part path inner entry reached
      obtain ⟨key, rfl, member⟩ := keyed entry
      rcases drawn member reached with came | ⟨named, nowhere⟩
      · exact .inl came
      · exact .inr ⟨congrArg _ named, nowhere⟩
    · intro name other part otherPart entry otherEntry same
      obtain ⟨key, rfl, member⟩ := keyed entry
      obtain ⟨otherKey, rfl, otherMember⟩ := keyed otherEntry
      exact congrArg _ (distinct member otherMember (SlotName.key.inj same))
  have came {name : SlotName} {part : Value}
      (entry : now.store.inner? (.composite id) name = some part) :
      part ∈ start.value 0 :: sources ∨ ∃ old, start.store.inner? (.composite id) old = some part := by
    obtain ⟨key, rfl, member⟩ := keyed entry
    rcases known member with new | old
    · exact .inl (List.mem_cons_of_mem _ new)
    · exact .inr ⟨_, old⟩
  have freeAfter : now.store.NaNFree (now.value 0) := by
    rw [sameRoot]
    refine Store.NaNFree.of_write others came List.mem_cons_self ?_
    intro value member
    rcases List.mem_cons.mp member with rfl | new
    · exact coherent.free
    · exact free value new
  have coherentAfter := effect.coherent_after coherent leads unshared freeAfter
  refine ⟨⟨coherentAfter, held, fits, ?_⟩, sameRoot, ?_⟩
  · rw [sameRoot]
    refine Store.Whole.of_write others came ?_ List.mem_cons_self ?_
    · rw [written]
      exact Option.some_ne_none _
    · intro value member
      rcases List.mem_cons.mp member with rfl | new
      · exact orderly.whole
      · exact whole value new
  · exact (@Effect.exchanged _ _ _ _ (fun _ => none) _ _ _ _ _ effect coherent coherentAfter leads
      here fun _ goes => by cases goes).tree

end Reworked

end World

end CodeTree
