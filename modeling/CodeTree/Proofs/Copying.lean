/-
Copies of values. A copy is alike, it is made of composites that were not there before, and each
of them stands at one place, also where the value has one composite at several places. So the
copy and the value have no composite in common, and a write to a composite of one of them does
not show in the other. This goes on through any number of writes, as long as nothing of the other
is stored on the way: what is reachable from the one side stays apart from the other.
-/

import CodeTree.Cursor.Direct
import CodeTree.Proofs.Likeness

namespace CodeTree

variable {after before store : Store} {part value : Value} {depth : Nat} {name : SlotName}

namespace Store

/-! ### Documents of values to which nothing is written -/

theorem Spares.documentTo {otherDepth : Nat} (spares : before.Spares after value)
    (within : before.Within value depth) (withinOther : before.Within value otherDepth) :
    after.documentTo otherDepth value = before.documentTo depth value := by
  have here : after.contents? value = before.contents? value := @spares [] value rfl
  induction depth generalizing value otherDepth with
  | zero => rw [documentTo_plain within.plain, documentTo_plain (here.trans within.plain)]
  | succ depth ih =>
    cases present : before.contents? value with
    | none => rw [documentTo_plain present, documentTo_plain (here.trans present)]
    | some contents =>
      obtain ⟨_, ⟨⟩, written⟩ := within.documentTo present
      obtain ⟨otherDepth, rfl, writtenToo⟩ :=
        Within.documentTo (Spares.within spares withinOther) (here.trans present)
      have next {name : SlotName} {part : Value} (entry : before.inner? value name = some part) :
          after.documentTo otherDepth part = before.documentTo depth part :=
        ih (spares.next entry) (within.next entry) (withinOther.next entry)
          (@spares [name] part ((part?_cons entry []).trans rfl))
      rw [written, writtenToo]
      cases contents with
      | array items =>
        refine congrArg Document.array (List.map_congr_left fun item member => ?_)
        obtain ⟨_, entry⟩ := exists_name_of_mem present member
        exact next entry
      | object members =>
        refine congrArg Document.object (List.map_congr_left fun member inside => ?_)
        rw [next (inner?_of_mem present inside)]

theorem Spares.document (spares : before.Spares after value) (acyclic : before.Acyclic value) :
    after.document value = before.document value :=
  spares.documentTo acyclic.within
    (Spares.within spares.symm (Acyclic.within (spares.acyclic acyclic)))

/-! ### Copying -/

/-- A value that can be copied to a depth. -/
structure Copyable (store : Store) (depth : Nat) (value : Value) : Prop where
  whole : store.Whole value
  free : store.NaNFree value
  within : store.Within value depth

theorem Copyable.next (copyable : store.Copyable (depth + 1) value)
    (entry : store.inner? value name = some part) : store.Copyable depth part where
  whole := copyable.whole.part (part?_cons entry [])
  free := NaNFree.part copyable.free (part?_cons entry [])
  within := Within.next copyable.within entry

theorem Copyable.extended (copyable : before.Copyable depth value)
    (grows : before.Extends after) : after.Copyable depth value := by
  have spares : before.Spares after value := copyable.whole.contents?_extended grows
  exact ⟨spares.whole copyable.whole, spares.free copyable.free, spares.within copyable.within⟩

/-- A value has been copied into a store. -/
structure Copied (value : Value) (before : Store) (result : Value × Store) : Prop where
  brings : before.Brings [result.1] result.2
  alike : result.2.Alike value result.1

theorem Copyable.copied_self (copyable : store.Copyable depth value)
    (plain : store.contents? value = none) : Copied value store (value, store) := by
  have primitive (id : CompositeId) (same : value = .composite id) : False :=
    copyable.whole [] id (congrArg some same) (same ▸ plain)
  have proper := NaNFree.self copyable.free
  exact ⟨brings_plain store primitive proper, .plain primitive (Value.same_self proper)⟩

theorem copied_array {mid : Store} {items twins : List Value}
    (array : store.contents? value = some (.array items)) (brings : store.Brings twins mid)
    (alike : List.Forall₂ mid.Alike items twins) :
    Copied value store (.composite mid.composites.size, mid.grown (.array twins)) := by
  obtain ⟨length, each⟩ := List.forall₂_iff_zip.mp alike
  have still := brings.grows _ _ array
  have grows := extends_grown mid (.array twins)
  refine ⟨brings.built (drawn_array _) ?_, .array (grows _ _ still) (contents?_grown_self _ _) length
    fun pair => (each pair).extended grows⟩
  rintro fits _ ⟨⟩
  exact length ▸ fits still

theorem copied_object {mid : Store} {members : Assoc String Value} {twins : List (String × Value)}
    (object : store.contents? value = some (.object members))
    (brings : store.Brings (twins.map Prod.snd) mid)
    (tied : Entries.Tied mid.Alike members.entries twins) :
    Copied value store (.composite mid.composites.size, mid.grown (.object (.ofList twins))) := by
  obtain ⟨_, each⟩ := List.forall₂_iff_zip.mp tied
  have grows := extends_grown mid (.object (.ofList twins))
  have listed := Assoc.entries_ofList (tied.keys ▸ members.distinct)
  refine ⟨brings.built (drawn_object _) fun _ => nofun,
    .object (grows _ _ (brings.grows _ _ object)) (contents?_grown_self _ _) ?_ fun pair => ?_⟩
  · rw [Assoc.keys, Assoc.keys, listed, tied.keys]
  · rw [listed] at pair
    exact (each pair).2.extended grows

section Entries

variable {α β : Type} (copyEntry : α → StateM Store β) (held : α → Value) (made : β → Value)
  (tied : α → β → Prop)

/-- Entries are copied one after the other. -/
theorem copied_entries
    (each : ∀ entry store, store.Copyable depth (held entry) →
      Copied (held entry) store (((copyEntry entry).run store).map made id) ∧
        tied entry ((copyEntry entry).run store).1)
    (entries : List α) (store : Store)
    (copyable : ∀ entry ∈ entries, store.Copyable depth (held entry)) :
    store.Brings (((entries.mapM copyEntry).run store).1.map made)
        ((entries.mapM copyEntry).run store).2 ∧
      List.Forall₂ (fun entry twin => tied entry twin ∧
          ((entries.mapM copyEntry).run store).2.Alike (held entry) (made twin))
        entries ((entries.mapM copyEntry).run store).1 := by
  induction entries generalizing store with
  | nil => exact ⟨brings_nil store, .nil⟩
  | cons entry rest ih =>
    obtain ⟨⟨first, alike⟩, ties⟩ := each entry store (copyable entry List.mem_cons_self)
    obtain ⟨later, twins⟩ := ih ((copyEntry entry).run store).2
      fun entry member => (copyable entry (List.mem_cons_of_mem _ member)).extended first.grows
    rw [List.mapM_cons]
    exact ⟨first.cons later, .cons ⟨ties, alike.extended later.grows⟩ twins⟩

end Entries

/-- A value that can be copied is copied into composites of its own. -/
theorem copied (depth : Nat) (value : Value) (store : Store)
    (copyable : store.Copyable depth value) :
    Copied value store ((copyTo depth value).run store) := by
  induction depth generalizing value store with
  | zero => exact copyable.copied_self (Within.plain copyable.within)
  | succ depth ih =>
    rw [copyTo, StateT.run_bind, StateT.run_get, pure_bind]
    cases present : store.contents? value with
    | none => exact copyable.copied_self present
    | some contents =>
      cases contents with
      | array items =>
        obtain ⟨brings, twins⟩ := copied_entries (copyTo depth) id id (fun _ _ => True)
          (fun item store copyable => ⟨ih item store copyable, trivial⟩) items store
          fun item member => (exists_name_of_mem present member).elim fun _ => copyable.next
        rw [List.map_id] at brings
        exact copied_array present brings (twins.imp fun _ _ both => both.2)
      | object members =>
        obtain ⟨brings, twins⟩ := copied_entries
          (fun entry : String × Value => do return (entry.1, ← copyTo depth entry.2)) Prod.snd Prod.snd
          (fun entry twin => entry.1 = twin.1)
          (fun entry store copyable => ⟨ih entry.2 store copyable, rfl⟩)
          members.entries store fun entry member => copyable.next (inner?_of_mem present member)
        exact copied_object present brings twins

/-! ### Writing to one side -/

/-- Two values that have no composite in common. -/
structure Separate (store : Store) (side other : Value) : Prop where
  whole : store.Whole side
  wholeOther : store.Whole other
  apart : store.Apart side other

/-- A write has changed one composite at most. What stands in it and did not stand there before
was stored by the write. -/
structure Wrote (target : CompositeId) (stored : List Value) (before after : Store) : Prop where
  others : ∀ {other}, other ≠ .composite target → after.contents? other = before.contents? other
  entries : ∀ {name part}, after.inner? (.composite target) name = some part →
    part ∈ stored ∨ ∃ old, before.inner? (.composite target) old = some part
  present : before.contents? (.composite target) ≠ none →
    after.contents? (.composite target) ≠ none

section Wrote

variable {target : CompositeId} {stored : List Value} {side other : Value} {path : List SlotName}

theorem Separate.extended (separate : before.Separate side other) (grows : before.Extends after) :
    after.Separate side other where
  whole := Spares.whole (separate.whole.contents?_extended grows) separate.whole
  wholeOther := Spares.whole (separate.wholeOther.contents?_extended grows) separate.wholeOther
  apart {path place id} mine its := by
    rw [separate.whole.part?_extended grows] at mine
    rw [separate.wholeOther.part?_extended grows] at its
    exact separate.apart mine its

variable (wrote : Wrote target stored before after) (separate : before.Separate side other)
  (mine : before.part? side path = some (.composite target))

include wrote separate mine

/-- A write to a composite of one side does not touch the other. -/
theorem Wrote.spares : before.Spares after other := by
  intro place part there
  refine wrote.others fun same => ?_
  exact separate.apart mine (same ▸ there)

/-- The two sides stay separate if what is stored has nothing in common with the other side. -/
theorem Wrote.separate_after (whole : ∀ value ∈ stored, before.Whole value)
    (apart : ∀ value ∈ stored, before.Apart value other) : after.Separate side other := by
  have spares : before.Spares after other := wrote.spares separate mine
  have entries {name : SlotName} {part : Value}
      (entry : after.inner? (.composite target) name = some part) :
      part ∈ side :: stored ∨ ∃ old, before.inner? (.composite target) old = some part :=
    (wrote.entries entry).imp_left (List.mem_cons_of_mem _)
  refine ⟨?_, spares.whole separate.wholeOther, ?_⟩
  · refine Whole.of_write wrote.others entries (wrote.present (separate.whole path target mine))
      List.mem_cons_self ?_
    exact List.forall_mem_cons.mpr ⟨separate.whole, whole⟩
  · intro path place id reached its
    rw [spares.part?] at its
    have known : before.PartOf (side :: stored) side := ⟨side, List.mem_cons_self, [], rfl⟩
    obtain ⟨source, member, old, stood⟩ := known.part_of_write wrote.others entries reached
    rcases List.mem_cons.mp member with rfl | new
    · exact separate.apart stood its
    · exact apart source new stood its

end Wrote

section Writes

variable (target : CompositeId) {stored : List Value} (store : Store)

theorem wrote_refl : Wrote target stored store store :=
  ⟨fun _ => rfl, fun entry => .inr ⟨_, entry⟩, id⟩

theorem wrote_modify {change : Composite → Composite}
    (drawn : ∀ {contents name part}, (change contents).inner? name = some part →
      part ∈ stored ∨ ∃ old, contents.inner? old = some part) :
    Wrote target stored store ⟨store.composites.modify target change⟩ := by
  refine ⟨fun different => ?_, fun {name part} entry => ?_, fun present => ?_⟩
  · rw [contents?_modify, if_neg different]
  · have self := contents?_modify store target change (.composite target)
    rw [if_pos rfl] at self
    cases present : store.contents? (.composite target) with
    | none =>
      rw [present] at self
      simp [inner?, self] at entry
    | some contents =>
      rw [present] at self
      rw [inner?_of_contents self] at entry
      simp only [inner?_of_contents present]
      exact drawn entry
  · rwa [contents?_modify, if_pos rfl, Ne, Option.map_eq_none_iff]

theorem wrote_modifyItems {change : List Value → List Value}
    (drawn : ∀ {items item}, item ∈ change items → item ∈ stored ∨ item ∈ items) :
    Wrote target stored store (store.modifyItems (.composite target) change) := by
  refine wrote_modify target store fun {contents name part} entry => ?_
  cases contents with
  | object members => exact .inr ⟨name, entry⟩
  | array items =>
    cases name with
    | key key => cases entry
    | index position =>
      refine (drawn (List.mem_of_getElem? entry)).imp_right fun member => ?_
      obtain ⟨place, there⟩ := List.mem_iff_getElem?.mp member
      exact ⟨.index place, there⟩

theorem wrote_modifyMembers {change : Assoc String Value → Assoc String Value}
    (drawn : ∀ {members key member}, (change members).get? key = some member →
      member ∈ stored ∨ members.get? key = some member) :
    Wrote target stored store (store.modifyMembers (.composite target) change) := by
  refine wrote_modify target store fun {contents name part} entry => ?_
  cases contents with
  | array items => exact .inr ⟨name, entry⟩
  | object members =>
    cases name with
    | index position => cases entry
    | key key => exact (drawn entry).imp_right fun there => ⟨.key key, there⟩

end Writes

end Store

/-- A write to one composite. -/
inductive Write where
  | setItem (array : CompositeId) (index : Nat) (item : Value)
  | insertItem (array : CompositeId) (index : Nat) (item : Value)
  | removeItem (array : CompositeId) (index : Nat)
  | setMember (object : CompositeId) (key : String) (member : Value)
  | eraseMember (object : CompositeId) (key : String)

namespace Write

/-- The composite that is written to. -/
def target : Write → CompositeId
  | setItem id _ _ | insertItem id _ _ | removeItem id _ | setMember id _ _ | eraseMember id _ => id

/-- What is stored. -/
def stored : Write → List Value
  | setItem _ _ value | insertItem _ _ value | setMember _ _ value => [value]
  | removeItem _ _ | eraseMember _ _ => []

/-- Writes. -/
def perform : Write → Action Unit
  | setItem array index item => Action.setItem (.composite array) index item
  | insertItem array index item => Action.insertItem (.composite array) index item
  | removeItem array index => discard (Action.removeItem (.composite array) index)
  | setMember object key member => discard (Action.setMember (.composite object) key member)
  | eraseMember object key => discard (Action.eraseMember (.composite object) key)

theorem insisted {α : Type} {target : CompositeId} {stored : List Value} {world : World}
    {next : Action α} (wrote : Store.Wrote target stored world.store (ended (next world)).store)
    (condition : Bool) (cause : Fault) : Store.Wrote target stored world.store
      (ended ((do Action.insist condition cause; next) world)).store := by
  cases condition with
  | true => exact wrote
  | false => exact Store.wrote_refl target world.store

/-- A write changes the composite that it is for, whichever way it ends. -/
theorem wrote (write : Write) (world : World) :
    Store.Wrote write.target write.stored world.store (ended (write.perform world)).store := by
  cases write with
  | setItem array index item =>
    refine insisted (Store.wrote_modifyItems array world.store fun member => ?_) _ _
    exact (List.mem_or_eq_of_mem_set member).symm.imp_left List.mem_singleton.mpr
  | insertItem array index item =>
    refine insisted (Store.wrote_modifyItems array world.store fun member => ?_) _ _
    rcases List.mem_append.mp member with early | late
    · exact .inr (List.mem_of_mem_take early)
    · rcases List.mem_cons.mp late with rfl | late
      · exact .inl List.mem_cons_self
      · exact .inr (List.mem_of_mem_drop late)
  | removeItem array index =>
    refine (ended_map (fun _ => ()) (Action.removeItem (.composite array) index) world).symm ▸ ?_
    exact insisted (Store.wrote_modifyItems array world.store fun member =>
      .inr (List.mem_of_mem_eraseIdx member)) _ _
  | setMember object key member =>
    refine Store.wrote_modifyMembers object world.store fun {members other found} there => ?_
    rw [Assoc.get?_insert] at there
    split at there
    · exact .inl (List.mem_singleton.mpr (Option.some.inj there).symm)
    · exact .inr there
  | eraseMember object key =>
    refine Store.wrote_modifyMembers object world.store fun {members other found} there => ?_
    rw [Assoc.get?_erase] at there
    split at there
    · cases there
    · exact .inr there

end Write

/-- The second world comes from the first by writes to composites of one value, none of which
stores anything of another, and by making composites. -/
inductive Rewritten (side other : Value) (start : World) : World → Prop
  | refl : Rewritten side other start start
  | write {world : World} {path : List SlotName} (earlier : Rewritten side other start world)
    (write : Write) (mine : world.store.part? side path = some (.composite write.target))
    (whole : ∀ value ∈ write.stored, world.store.Whole value)
    (apart : ∀ value ∈ write.stored, world.store.Apart value other) :
    Rewritten side other start (ended (write.perform world))
  | make {world : World} (earlier : Rewritten side other start world) (contents : Composite) :
    Rewritten side other start (ended (Action.onStore (Store.allocate contents) world))

/-- Writes to one of two separate values never show in the other. -/
theorem Rewritten.spares {side other : Value} {start world : World}
    (rewritten : Rewritten side other start world) (separate : start.store.Separate side other) :
    world.store.Separate side other ∧ start.store.Spares world.store other := by
  induction rewritten with
  | refl => exact ⟨separate, fun _ => rfl⟩
  | @write world _ _ write mine whole apart ih =>
    obtain ⟨still, spares⟩ := ih
    have wrote := write.wrote world
    exact ⟨wrote.separate_after still mine whole apart, spares.trans (wrote.spares still mine)⟩
  | @make world _ contents ih =>
    obtain ⟨still, spares⟩ := ih
    have grows := Store.extends_grown world.store contents
    exact ⟨still.extended grows, spares.trans (still.wholeOther.contents?_extended grows)⟩

namespace Store

/-- A value without cycles that holds no NaN is copied into fresh composites, of which each stands
at one place. The copy has equal contents and the same keys in the same order, and writes to the
one never show in the other. -/
theorem copies_are_isolated (whole : store.Whole value) (acyclic : store.Acyclic value)
    (free : store.NaNFree value) :
    ∃ twin after, (copy value).run store = (twin, after) ∧
      after.document value = store.document value ∧
      after.equal value twin = true ∧ after.Alike value twin ∧
      (∀ path id, after.part? twin path = some (.composite id) →
        store.contents? (.composite id) = none) ∧
      after.Unshared twin ∧
      ∀ {start last : World}, start.store = after →
        (Rewritten value twin start last → last.store.document twin = after.document twin) ∧
        (Rewritten twin value start last → last.store.document value = after.document value) := by
  have result : Copied value store ((copy value).run store) :=
    copied _ value store ⟨whole, free, acyclic.within⟩
  generalize (copy value).run store = made at result
  obtain ⟨twin, after⟩ := made
  obtain ⟨brings, alike⟩ := result
  have spares : store.Spares after value := whole.contents?_extended brings.grows
  have wholeAfter : after.Whole value := spares.whole whole
  have acyclicAfter : after.Acyclic value := spares.acyclic acyclic
  have intact : after.Intact twin := brings.intact twin List.mem_cons_self
  have apart : after.Apart value twin := brings.apart_of_whole whole
  refine ⟨twin, after, rfl, spares.document acyclic, alike.equalTo acyclicAfter.within,
    alike, fun path id there => ?_, intact.unshared, ?_⟩
  · exact Array.getElem?_eq_none (brings.fresh twin List.mem_cons_self path id there)
  · rintro start last rfl
    refine ⟨fun rewritten => ?_, fun rewritten => ?_⟩
    · exact Spares.document (rewritten.spares ⟨wholeAfter, intact.whole, apart⟩).2
        (Unshared.acyclic intact.unshared)
    · have swapped : start.store.Apart twin value := fun mine its => apart its mine
      exact Spares.document (rewritten.spares ⟨intact.whole, wholeAfter, swapped⟩).2 acyclicAfter

/-- A write to the array that is shared shows at both of its places, and not in a copy made
before. -/
theorem copies_are_isolated_sharing :
    ∃ twin after last, (copy (.composite 1)).run sharing = (twin, after) ∧
      Rewritten (.composite 1) twin { World.empty with store := after } last ∧
      last.store.document (.composite 1) = .array [.array [.bool true], .array [.bool true]] ∧
      last.store.document twin = sharing.document (.composite 1) := by
  have free : sharing.NaNFree (.composite 1) := by
    intro path part there
    rcases part_of_sharing there with ⟨_, rfl⟩ | ⟨_, rfl⟩ | rfl <;> rfl
  obtain ⟨twin, after, ran, _, _, _, _, _, isolated⟩ :=
    copies_are_isolated whole_sharing acyclic_sharing free
  have reached : after.part? (.composite 1) [.index 0] = some (.composite 0) := by
    cases ran
    rfl
  have apart : after.Apart (.bool true) twin := fun mine _ => by
    cases (part?_of_plain rfl mine).2
  have written := Rewritten.write (.refl : Rewritten _ twin { World.empty with store := after } _)
    (.setItem 0 0 (.bool true)) reached (List.forall_mem_singleton.mpr (whole_of_plain nofun))
    (List.forall_mem_singleton.mpr apart)
  refine ⟨twin, after, _, ran, written, ?_, ((isolated rfl).1 written).trans ?_⟩
  · cases ran
    rfl
  · cases ran
    rfl

end Store

end CodeTree
