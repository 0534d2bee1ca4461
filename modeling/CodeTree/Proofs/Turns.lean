/-
Walking through the children of a value. What is visited is read off the store, so that the cursors
need not fit the tree beforehand. While a child has its turn every cursor above it is held, so that
it knows the names on its way up.
-/

import CodeTree.Proofs.Endings
import CodeTree.Proofs.Reaching

namespace CodeTree

open World

variable {H σ τ : Type}

variable {origin : Store} {c : CursorId} {behaviour : Behaviour H σ} {held : List CursorId}
  {names path : List SlotName} {items : List Value} {turns : Nat} {before start : Session H σ}
  {name : SlotName} {v : VisitorId}

namespace Stroll

variable {members : Assoc String Value} {terms : Terms H σ τ}

/-! ### Visiting one value after another -/

/-- A value as it was in a store, with turns enough to visit what was in its slots. -/
structure Opened (origin : Store) (holder : Value) (turns : Nat) : Prop where
  unshared : origin.Unshared holder
  whole : origin.Whole holder
  affords : origin.Affords holder (turns + 2)

section Visit

variable (dispatches : Dispatches behaviour terms v turns) {holder : Value}
  (opened : Opened origin holder turns)

include dispatches opened

/-- The visit of a child goes through the positions in its slot. -/
theorem ends_child {d : CursorId} (sound : Sound before.world) (holds : terms.holds before.world)
    (seat : terms.seats before.world (path ++ [name]) d)
    (handlers : (before.visitor v).handlers = terms.policy.handlers)
    (rises : before.world.Rises path c) (held : d ∈ before.world.held) (two : 2 ≤ turns)
    (offers : Offers origin holder before.world c name d) :
    Ends terms before.world.store (before.world.value d) before.world.held
      (terms.policy.within path (origin.tree holder) name) before
      ((Visitor.calls behaviour turns).dispatch v d before) := by
  have risesToo := rises.step offers.above offers.bears (isHeld_of_mem held)
  have slot := Store.inner?_tree opened.unshared name
  rcases offers.shows with ⟨entry, spares⟩ | ⟨⟨bare, _⟩, nothing⟩
  · have unshared : origin.Unshared (before.world.value d) :=
      Store.Unshared.next opened.unshared entry
    have ends := dispatches ⟨sound, holds, seat, handlers, risesToo, spares.unshared unshared,
      spares.whole (opened.whole.part ((Store.part?_cons entry []).trans rfl)),
      spares.affords (opened.affords.inner entry)⟩
    rw [spares.tree unshared] at ends
    rw [Policy.within, slot, entry]
    exact ends
  · have hollow (name : SlotName) :
        (before.world.store.tree (before.world.value d)).inner? name = none := by
      rw [Store.inner?_tree bare.unshared, bare.inner?]
      rfl
    have ends := dispatches ⟨sound, holds, seat, handlers, risesToo, bare.unshared, bare.whole,
      Store.affords_of_bare bare two⟩
    obtain ⟨known, nobody⟩ := terms.policy.invocations_of_hollow hollow (path ++ [name])
    have passed :
        (terms.policy.within path (origin.tree holder) name).all Position.isKnown = true ∧
        terms.policy.invocations (terms.policy.within path (origin.tree holder) name) = [] := by
      rw [Policy.within, slot]
      cases entry : origin.inner? holder name with
      | none => exact ⟨rfl, rfl⟩
      | some part =>
        rw [Option.map_some, Option.map_some, Option.getD_some,
          Store.tree_of_none (nothing part entry)]
        exact terms.policy.invocations_of_hollow (fun name => by cases name <;> rfl) _
    refine ends.congr (passed.1.trans known.symm) (passed.2.trans nobody.symm) fun value lacks => ?_
    obtain ⟨members, object⟩ := Store.exists_members_of_lacking lacks
    refine iff_of_false (terms.policy.not_entered_of_hollow hollow ?_ _) ?_
    · rw [Store.value_tree]
      rintro rfl
      exact bare.not_object object
    · rw [Policy.within, slot]
      cases entry : origin.inner? holder name with
      | none => exact terms.policy.not_entered_nil value
      | some part =>
        have plain := opened.whole.plain ((Store.part?_cons entry []).trans rfl) (nothing part entry)
        rw [Option.map_some, Option.map_some, Option.getD_some,
          Store.tree_of_none (nothing part entry)]
        refine terms.policy.not_entered_of_hollow (fun name => by cases name <;> rfl) ?_ _
        rintro rfl
        cases (plain before.world.store).symm.trans object

section Loop

variable (loop : List CursorId → Session H σ → Ended H σ Unit)
  (pending : List CursorId → List CursorId) (next : CursorId → List CursorId → List CursorId)
  (last : List CursorId → List CursorId → List CursorId)
  (nil : ∀ session, loop [] session = .ok () session)
  (cons : ∀ d rest session, loop (d :: rest) session =
    match (Visitor.calls behaviour turns).dispatch v d session with
    | .ok _ after => loop rest (handles after (next d))
    | .error halt after => .error halt (handles after (last (d :: rest))))
  (done : pending [] = [])
  (stays : ∀ {c d rest}, c ∈ rest → c ∈ pending (d :: rest) → c ∈ pending rest)
  (nextLets : ∀ {d heldNow}, ∀ c ∈ next d heldNow, c ∈ heldNow)
  (lastLets : ∀ {ds heldNow}, ∀ c ∈ last ds heldNow, c ∈ heldNow)
  (nexts : ∀ {d rest held heldNow}, (pending (d :: rest) ++ held).Subperm heldNow →
    (pending rest ++ held).Subperm (next d heldNow))
  (lasts : ∀ {ds held heldNow}, (pending ds ++ held).Subperm heldNow →
    held.Subperm (last ds heldNow))

include nil cons done stays nextLets lastLets nexts lasts

/-- Cursors of slots are visited one after another, and those that have had their turn may be let
go. -/
theorem ends_loop {before : Session H σ} {held : List CursorId} {path : List SlotName}
    {c : CursorId} {names : List SlotName} {ds : List CursorId} (sound : Sound before.world)
    (holdsTrue : terms.holds before.world)
    (handlers : (before.visitor v).handlers = terms.policy.handlers)
    (subperm : (pending ds ++ held).Subperm before.world.held)
    (rises : { before.world with held }.Rises path c) (holds : ∀ d ∈ ds, d ∈ pending ds ++ held)
    (two : ds ≠ [] → 2 ≤ turns) (distinct : names.Nodup)
    (confined : origin.Confined before.world.store holder)
    (offers : List.Forall₂ (Offers origin holder before.world c) names ds)
    (seats : List.Forall₂ (fun name => terms.seats before.world (path ++ [name])) names ds) :
    Ends terms origin holder held
      (names.flatMap (terms.policy.within path (origin.tree holder))) before (loop ds before) := by
  induction ds generalizing before names with
  | nil =>
    cases offers
    rw [nil]
    rw [done, List.nil_append] at subperm
    exact ⟨.nil sound subperm confined, rfl⟩
  | cons d rest ih =>
    cases offers with
    | @cons name _ names _ first others =>
    obtain ⟨seat, seatsRest⟩ := List.forall₂_cons.mp seats
    obtain ⟨apart, distinctRest⟩ := List.nodup_cons.mp distinct
    have heldThroughout {e : CursorId} (member : e ∈ held) : e ∈ before.world.held :=
      subperm.subset (List.mem_append_right _ member)
    have soundHeld : Sound { before.world with held } :=
      sound.around _ fun e member => sound.held (heldThroughout member)
    have risesHere : before.world.Rises path c :=
      rises.keeps soundHeld ((Keeps.refl before.world).around _ _ _ _) fun e => heldThroughout
    have ends := ends_child dispatches opened sound holdsTrue seat handlers risesHere
      (subperm.subset (holds d List.mem_cons_self)) (two (List.cons_ne_nil _ _)) first
    rw [cons, List.flatMap_cons]
    cases outcome : (Visitor.calls behaviour turns).dispatch v d before with
    | error halt mid =>
      rw [outcome] at ends
      exact Ends.tidying (ends.append.imp (fun logs => ⟨logs.toPasses, logs.held,
        first.confined_step logs.confined confined, logs.log, logs.goesOn, logs.completes⟩) rfl id)
        (tidied_handles · _) lastLets fun later => lasts (subperm.trans later)
    | ok result mid =>
      rw [outcome] at ends
      obtain ⟨logs, clear⟩ := ends
      have subpermNext := nexts (subperm.trans logs.held)
      have passes := logs.toPasses.trans ((tidied_handles mid (next d)).passes logs.sound
        fun e member => logs.sound.held (nextLets e member))
      have confinedNext : before.world.store.Confined (handles mid (next d)).world.store
          (before.world.value d) := logs.confined
      have onward := ih passes.sound (passes.footing.holds holdsTrue)
        ((passes.handlers v).trans handlers) subpermNext
        (rises.keeps soundHeld (passes.keeps.around _ _ _ _) fun _ => id)
        (fun e member => (List.mem_append.mp (holds e (List.mem_cons_of_mem _ member))).elim
          (fun waiting => List.mem_append_left _ (stays member waiting)) (List.mem_append_right _))
        (fun _ => two (List.cons_ne_nil _ _)) distinctRest
        (first.confined_step confinedNext confined)
        (first.aside_all confinedNext opened.unshared opened.whole passes.keeps apart others)
        (seatsRest.imp fun _ _ => passes.footing.seats)
      exact onward.prepend passes clear logs.log logs.goesOn (logs.completes clear)

end Loop

section Children

variable {ds : List CursorId} (sound : Sound before.world) (holdsTrue : terms.holds before.world)
  (handlers : (before.visitor v).handlers = terms.policy.handlers) (two : ds ≠ [] → 2 ≤ turns)
  (distinct : names.Nodup) (confined : origin.Confined before.world.store holder)
  (offers : List.Forall₂ (Offers origin holder before.world c) names ds)
  (seats : List.Forall₂ (fun name => terms.seats before.world (path ++ [name])) names ds)

include sound holdsTrue handlers two distinct confined offers seats

/-- Elements are let go one by one, after their turns. -/
theorem ends_turns (subperm : (ds ++ held).Subperm before.world.held)
    (rises : { before.world with held }.Rises path c) :
    Ends terms origin holder held
      (names.flatMap (terms.policy.within path (origin.tree holder))) before
      (HasWorld.turns (Visitor.turn (Visitor.calls behaviour turns) v) ds before) := by
  refine ends_loop dispatches opened
    (fun ds session => HasWorld.turns (Visitor.turn (Visitor.calls behaviour turns) v) ds session)
    (fun ds => ds) (fun d held => held.erase d) (fun ds held => ds.foldl List.erase held)
    (fun _ => rfl) ?_ rfl (fun member _ => member) (fun _ => List.mem_of_mem_erase)
    (fun _ => mem_of_mem_foldl_erase) (fun subperm => @subperm_foldl_erase [_] _ _ subperm)
    subperm_foldl_erase sound holdsTrue handlers subperm rises
    (fun d member => List.mem_append_left _ member) two distinct confined offers seats
  · intro d rest session
    simp only [HasWorld.turns, Visitor.turn, bind, EStateM.bind]
    cases (Visitor.calls behaviour turns).dispatch v d session with
    | ok _ after => rfl
    | error halt after =>
      refine congrArg (EStateM.Result.error halt) ?_
      show ({ after with world := after.world.releaseAll (d :: rest) } : Session H σ) = _
      rw [releaseAll_eq]
      rfl

/-- Fields are all held while they have their turns. -/
theorem ends_forM (rises : before.world.Rises path c) (holds : ∀ d ∈ ds, d ∈ before.world.held) :
    Ends terms origin holder before.world.held
      (names.flatMap (terms.policy.within path (origin.tree holder))) before
      (ds.forM (Visitor.turn (Visitor.calls behaviour turns) v) before) := by
  refine ends_loop dispatches opened
    (fun ds session => ds.forM (Visitor.turn (Visitor.calls behaviour turns) v) session)
    (fun _ => []) (fun _ held => held) (fun _ held => held)
    (fun _ => rfl) ?_ rfl (fun _ => id) (fun _ => id) (fun _ => id) id id sound holdsTrue
    handlers (.refl _) rises holds two distinct confined offers seats
  intro d rest session
  show EStateM.bind (EStateM.bind ((Visitor.calls behaviour turns).dispatch v d) fun _ => pure ())
    (fun _ => rest.forM (Visitor.turn (Visitor.calls behaviour turns) v)) session = _
  simp only [EStateM.bind]
  cases (Visitor.calls behaviour turns).dispatch v d session <;> rfl

end Children

end Visit

/-! ### Going through the children of a value -/

/-- What a walk through the children of a tree comes to. Where it cannot start, it comes to the tree
itself, where it ends. -/
def onward (policy : Policy H) (path : List SlotName) (tree : Tree) : List Position :=
  if tree.isUnknown then [⟨path, tree⟩] else policy.below path tree

/-- How a walk through the children of a value ends: the value is completed, and then the positions
below it are gone through. -/
def Proceeds {α : Type} (terms : Terms H σ τ) (path : List SlotName) (c : CursorId)
    (before : Session H σ) (result : Ended H σ α) : Prop :=
  ∃ start, Passes terms before start ∧
    terms.journal.view start.state = terms.journal.view before.state ∧
    before.world.store.Completes start.world.store (· = before.world.value c) ∧
    Ends terms before.world.store (before.world.value c) before.world.held
      (onward terms.policy path (before.world.store.tree (before.world.value c))) start result

/-- The walk is up to going through the children of any value that it has turns enough for. -/
def Traverses (behaviour : Behaviour H σ) (terms : Terms H σ τ)
    (v : VisitorId) (turns : Nat) : Prop :=
  ∀ {before : Session H σ} {path : List SlotName} {c : CursorId},
    Faces terms v (turns + 1) before path c →
    Proceeds terms path c before ((Visitor.calls behaviour turns).traverse v c before)

/-! ### Walking through arrays and objects -/

section Traverse

variable (faces : Faces terms v (turns + 2) before path c)

include faces

theorem Faces.opened : Opened before.world.store (before.world.value c) turns :=
  ⟨faces.unshared, faces.whole, faces.affords⟩

theorem Faces.two (full : ¬before.world.store.Bare (before.world.value c)) : 2 ≤ turns := by
  have enough := @(faces.affords).deep [] _ rfl full
  simpa using enough

/-- All children are held before the first has its turn. -/
theorem Faces.collected {result : List CursorId × World}
    (collected : Collected before.world.store (before.world.value c) before.world c names result)
    (steps : terms.toFooting.Stays before.world result.2 ∧
      List.Forall₂ (fun name => terms.seats result.2 (path ++ [name])) names result.1)
    (starts : start = { before with world := result.2.holdAll result.1 }) :
    Passes terms before start ∧ start.world.held.Perm (result.1 ++ before.world.held) ∧
      { start.world with held := before.world.held }.Rises path c ∧
      List.Forall₂ (Offers before.world.store (before.world.value c) start.world c) names
        result.1 ∧
      List.Forall₂ (fun name => terms.seats start.world (path ++ [name])) names result.1 := by
  have world : start.world = { result.2 with held := result.1.reverse ++ before.world.held } := by
    rw [starts, ← collected.held]
    exact holdAll_eq result.2 result.1
  have inside : ∀ d ∈ result.1.reverse ++ before.world.held, d < result.2.cursors.size := by
    intro d member
    rcases List.mem_append.mp member with new | old
    · exact collected.inside d (List.mem_reverse.mp new)
    · exact Nat.lt_of_lt_of_le (faces.sound.held old) collected.keeps.size
  refine ⟨⟨?_, ?_, ?_, fun _ => starts ▸ rfl⟩, ?_, ?_, ?_, ?_⟩ <;> rw [world]
  · exact collected.sound.around _ inside
  · exact steps.1.trans (terms.handles _ _)
  · exact collected.keeps.around _ _ _ _
  · exact (List.reverse_perm _).append_right _
  · exact faces.rises.keeps faces.sound (collected.keeps.around _ _ _ _) fun _ => id
  · exact collected.offers.imp fun _ _ offers => ⟨offers.above, offers.bears, offers.shows⟩
  · exact steps.2.imp fun _ _ => (terms.handles _ _).seats

variable (dispatches : Dispatches behaviour terms v turns)

include dispatches

theorem ends_array
    (array : before.world.store.contents? (before.world.value c) = some (.array items)) :
    Proceeds terms path c before (Visitor.traverse (Visitor.calls behaviour turns) v c before) := by
  have slots := slots_of_array terms.policy faces.unshared array
  have inRange : ∀ name ∈ (List.range items.length).map SlotName.index,
      ∃ position, name = .index position ∧ position < items.length := by
    intro name member
    obtain ⟨position, inside, rfl⟩ := List.mem_map.mp member
    exact ⟨position, rfl, List.mem_range.mp inside⟩
  obtain ⟨collected, store⟩ := @Sound.collected_elements _ faces.sound c faces.rises.inside items
    array ((List.range items.length).map .index) (by
      intro name member
      obtain ⟨position, rfl, inside⟩ := inRange name member
      rw [Store.inner?_array array]
      exact ⟨_, List.getElem?_eq_getElem inside⟩)
  have elements : before.world.elements c =
      before.world.childrenAt c ((List.range items.length).map .index) := by
    rw [World.elements, Store.items?_eq_some.mpr array]
    rfl
  have steps := Terms.steps_elements faces.sound faces.rises.inside faces.holds faces.seat array
    inRange
  rw [← elements] at collected store steps
  obtain ⟨passes, perm, rises, offers, seats⟩ := faces.collected collected steps rfl
  have two (some : (before.world.elements c).1 ≠ []) : 2 ≤ turns := by
    refine faces.two fun bare => some ?_
    rcases bare with plain | empty
    · rw [Store.contents?_of_plain plain] at array
      cases array
    · cases array.symm.trans empty
      exact List.eq_nil_of_length_eq_zero collected.offers.length_eq.symm
  have confined : before.world.store.Confined (before.world.elements c).2.store
      (before.world.value c) := by
    rw [store]
    exact .refl _ _
  have distinct := terms.policy.nodup_slots (Store.keyed_tree faces.unshared)
  rw [slots] at distinct
  have ends := ends_turns dispatches faces.opened passes.sound (passes.footing.holds faces.holds)
    faces.handlers two distinct (by rw [holdAll_eq]; exact confined) offers seats perm.symm.subperm
    rises
  have known : (before.treeAt c).isUnknown = false := by
    rw [Tree.isUnknown, Store.inner?_tree faces.unshared, Store.inner?_of_contents array]
    rfl
  refine ⟨_, passes, rfl, ?_, ?_⟩
  · rw [holdAll_eq]
    dsimp only
    rw [store]
    refine Store.completes_of_satisfied (Store.lacking_of_not_object fun _ object => ?_)
    cases array.symm.trans object
  · rw [Visitor.traverse_array array, onward, known, if_neg Bool.false_ne_true, Policy.below, slots]
    exact ends.answering c

theorem ends_object
    (object : before.world.store.contents? (before.world.value c) = some (.object members)) :
    Proceeds terms path c before (Visitor.traverse (Visitor.calls behaviour turns) v c before) := by
  have slots := slots_of_object terms.policy faces.unshared object
  rcases walkedFields_eq faces.handlers faces.unshared object with
    ⟨unknown, refused, unnamed⟩ | ⟨fields, named⟩
  · have stuck : Position.isKnown ⟨path, before.treeAt c⟩ = false := by
      rw [Position.isKnown, unnamed, Bool.not_true]
    rw [Visitor.traverse_refused object refused, Proceeds, onward, if_pos unnamed]
    have nobody : terms.policy.invocations [⟨path, before.treeAt c⟩] = [] := by
      rw [Policy.invocations, List.takeWhile_cons, stuck]
      rfl
    have stop : [⟨path, before.treeAt c⟩].all Position.isKnown = false := by
      rw [List.all_cons, stuck, Bool.false_and]
    have passes : Passes terms before before := .refl faces.sound
    refine ⟨before, passes, rfl, ?_, .inl ⟨⟨passes, .refl _, .refl _ _, ?_, ?_, ?_⟩, stop, _, rfl⟩⟩
    · refine Store.completes_of_satisfied (Store.lacking_of_untyped ?_)
      rw [Tree.isUnknown, Bool.and_eq_true, Option.isNone_iff_eq_none,
        Store.type?_tree faces.unshared] at unnamed
      exact unnamed.2
    · rw [Journal.record, nobody]
      rfl
    · exact fun stops => terms.policy.not_invokes_nil ((terms.policy.invokes_congr nobody).mp stops)
    · intro clear
      rw [stop] at clear
      cases clear
  · obtain ⟨collected, widened, _⟩ := faces.sound.collected_fields object faces.rises.inside rfl
      faces.unshared faces.whole (.refl _ _)
      (terms.policy.walkedKeys (before.treeAt c))
    obtain ⟨passes, perm, rises, offers, seats⟩ := faces.collected collected
      (Terms.steps_fields faces.sound faces.rises.inside faces.holds faces.seat object _) rfl
    have subperm := perm.symm.subperm
    have two : 2 ≤ turns := faces.two fun bare => bare.not_object object
    have distinct := terms.policy.nodup_slots (Store.keyed_tree faces.unshared)
    rw [slots] at distinct
    have inside := fun e member =>
      Nat.lt_of_lt_of_le (faces.sound.held (c := e) member) passes.keeps.size
    have ends := ends_forM dispatches faces.opened passes.sound (passes.footing.holds faces.holds)
      faces.handlers (fun _ => two) distinct (by rw [holdAll_eq]; exact widened.confined object)
      offers seats
      (rises.keeps (passes.sound.around _ inside) ((Keeps.refl _).around _ _ _ _)
        fun e member => subperm.subset (List.mem_append_right _ member))
      fun d member => subperm.subset (List.mem_append_left _ member)
    have released := ends.tidying (tidied_releaseAll _) (fun _ => mem_of_mem_foldl_erase)
      fun later => subperm_foldl_erase (subperm.trans later)
    rw [← Visitor.ensuring_apply] at released
    refine ⟨_, passes, rfl, ?_, ?_⟩
    · rw [holdAll_eq]
      exact completes_fieldCursors faces.rises.inside object
        (List.Nodup.of_map _ distinct) (missing_walkedKeys terms.policy faces.unshared)
    · rw [Visitor.traverse_object object fields, onward, named, if_neg Bool.false_ne_true,
        Policy.below, slots]
      exact released.answering c

end Traverse

theorem traverses_succ (dispatches : Dispatches behaviour terms v turns) :
    Traverses behaviour terms v (turns + 1) := by
  intro before path c faces
  show Proceeds _ _ _ _ (Visitor.traverse (Visitor.calls behaviour turns) v c before)
  cases present : before.world.store.contents? (before.world.value c) with
  | none =>
    rw [Visitor.traverse_plain present, Proceeds, Store.tree_of_none present]
    refine ⟨before, .refl faces.sound, rfl,
      Store.completes_of_satisfied (Store.lacking_of_not_object fun _ object => ?_),
      .nil faces.sound (.refl _) (.refl _ _), rfl⟩
    cases present.symm.trans object
  | some contents =>
    cases contents with
    | object members => exact ends_object faces dispatches present
    | array items => exact ends_array faces dispatches present

end Stroll

end CodeTree
