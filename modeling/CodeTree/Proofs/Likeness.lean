/-
Values that are alike: arrays of one length, objects with the same keys in the same order, or the
same primitive, with the like in their slots. Which composites they are made of does not matter,
nor whether these are shared. Values that are alike have equal contents.

A value without cycles whose numbers are finite is read back from its document as a value that is
alike and made of composites of its own, none of which stands at two places. A document whose
numbers are whole and below `2 ^ 53` is what is read back from the value that it is loaded into.
-/

import CodeTree.Proofs.Filling
import CodeTree.Proofs.Numerals
import Mathlib.Data.List.Forall2

namespace CodeTree

variable {after before store : Store} {left right value : Value} {depth : Nat}

namespace Store

/-! ### Values that are alike -/

/-- Two values show the same at every place: arrays of one length, objects with the same keys in
the same order, or the same primitive. -/
inductive Alike (store : Store) : Value → Value → Prop
  | plain {left right : Value} (plain : ∀ id, left ≠ .composite id)
    (same : left.same right = true) : Alike store left right
  | array {left right : Value} {items others : List Value}
    (array : store.contents? left = some (.array items))
    (other : store.contents? right = some (.array others)) (length : items.length = others.length)
    (alike : ∀ {item twin}, (item, twin) ∈ items.zip others → Alike store item twin) :
    Alike store left right
  | object {left right : Value} {members others : Assoc String Value}
    (object : store.contents? left = some (.object members))
    (other : store.contents? right = some (.object others)) (keys : members.keys = others.keys)
    (alike : ∀ {member twin}, (member, twin) ∈ members.entries.zip others.entries →
      Alike store member.2 twin.2) : Alike store left right

/-- Values that are alike have equal contents. -/
theorem Alike.equalTo (alike : store.Alike left right) (within : store.Within left depth) :
    store.equalTo depth left right = true := by
  induction alike generalizing depth with
  | plain _ same =>
    cases depth with
    | zero => exact same
    | succ depth => rw [Store.equalTo, same, Bool.true_or]
  | array array other length _ ih =>
    obtain ⟨depth, rfl⟩ := within.exists_less array
    rw [Store.equalTo, Bool.or_eq_true, array, other, Bool.and_eq_true, beq_iff_eq,
      List.all_eq_true]
    refine .inr ⟨length, fun pair member => ih member ?_⟩
    obtain ⟨_, entry⟩ := exists_name_of_mem array (List.of_mem_zip member).1
    exact within.next entry
  | @object _ _ members others object other keys _ ih =>
    obtain ⟨depth, rfl⟩ := within.exists_less object
    rw [Store.equalTo, Bool.or_eq_true, object, other, Bool.and_eq_true, beq_iff_eq,
      List.all_eq_true]
    refine .inr ⟨?_, fun member inside => ?_⟩
    · simpa [Assoc.keys, Assoc.size] using congrArg List.length keys
    · obtain ⟨position, there⟩ := List.mem_iff_getElem?.mp inside
      have named : others.keys[position]? = some member.1 := by
        rw [← keys, Assoc.keys, List.getElem?_map, there]
        rfl
      rw [Assoc.keys, List.getElem?_map] at named
      obtain ⟨twin, found, same⟩ := Option.map_eq_some_iff.mp named
      rw [← same, Assoc.mem_entries.mp (List.mem_of_getElem? found)]
      exact ih (List.mem_of_getElem? (List.getElem?_zip_eq_some.mpr ⟨there, found⟩))
        (within.next (inner?_of_mem object inside))

theorem Alike.extended (grows : before.Extends after) (alike : before.Alike left right) :
    after.Alike left right := by
  induction alike with
  | plain plain same => exact .plain plain same
  | array array other length _ ih =>
    exact .array (grows _ _ array) (grows _ _ other) length ih
  | object object other keys _ ih =>
    exact .object (grows _ _ object) (grows _ _ other) keys ih

theorem Spares.acyclic (spares : before.Spares after value) (acyclic : before.Acyclic value) :
    after.Acyclic value := by
  intro path rest id first second
  rw [spares.part?] at first second
  exact acyclic first second

/-! ### Through a document and back -/

/-- Every number of a value is finite. -/
def Finite (store : Store) (value : Value) : Prop :=
  ∀ {path number}, store.part? value path = some (.number number) → number.isFinite = true

/-- No composite stands in both of two values. -/
def Apart (store : Store) (left right : Value) : Prop :=
  ∀ {path place id}, store.part? left path = some (.composite id) →
    store.part? right place ≠ some (.composite id)

/-- What comes into a store has no composite in common with a value that was whole before. -/
theorem Brings.apart_of_whole {twin : Value} (brings : before.Brings [twin] after)
    (whole : before.Whole value) : after.Apart value twin := by
  intro path place id old new
  rw [whole.part?_extended brings.grows] at old
  have below := lt_size_of_contents? (whole path id old)
  exact Nat.not_le_of_lt below (brings.fresh twin List.mem_cons_self place id new)

theorem Finite.next {part : Value} {name : SlotName} (finite : store.Finite value)
    (entry : store.inner? value name = some part) : store.Finite part := fun there =>
  finite ((part?_cons entry _).trans there)

theorem map_eq_of_zip {α β : Type} {items : List α} {others : List β} {f : β → α}
    (length : items.length = others.length)
    (each : ∀ {item other}, (item, other) ∈ items.zip others → f other = item) :
    others.map f = items :=
  Eq.symm (List.forall₂_eq_eq_eq ▸ List.forall₂_map_right_iff.mpr
    (List.forall₂_iff_zip.mpr ⟨length, fun pair => (each pair).symm⟩))

end Store

theorem Document.areProper_eq_all (items : List Document) : areProper items = items.all isProper := by
  induction items with
  | nil => rfl
  | cons item rest ih => rw [areProper, ih, List.all_cons]

theorem Document.areProperUnder_eq_all (members : List (String × Document)) :
    areProperUnder members = members.all (·.2.isProper) := by
  induction members with
  | nil => rfl
  | cons member rest ih =>
    rw [areProperUnder, ih, List.all_cons]

namespace Store

/-- What a value with finite numbers is written as can be loaded. -/
theorem Finite.isProper (fits : store.Fits) : ∀ (depth : Nat) {value : Value},
    store.Finite value → (store.documentTo depth value).isProper = true
  | _, .null, _ | _, .bool _, _ | _, .text _, _ => by
    rw [documentTo]
    rfl
  | _, .number number, finite => by
    obtain ⟨numeral, written, equals⟩ := Document.exists_ofDouble (@finite [] number rfl)
    rw [documentTo, written, Document.isProper, (Double.not_isNaN_of_equals equals).1]
    rfl
  | 0, .composite _, _ => rfl
  | depth + 1, .composite id, finite => by
    rw [documentTo]
    split
    · rename_i items found
      have array : store.contents? (.composite id) = some (.array items) := found
      rw [Document.isProper, Bool.and_eq_true, decide_eq_true_eq, List.length_map,
        Document.areProper_eq_all, List.all_eq_true]
      refine ⟨fits array, List.forall_mem_map.mpr fun item member => ?_⟩
      obtain ⟨_, entry⟩ := exists_name_of_mem array member
      exact Finite.isProper fits depth (finite.next entry)
    · rename_i found
      rw [Document.isProper, Document.areProperUnder_eq_all, List.all_eq_true]
      refine List.forall_mem_map.mpr fun member inside => ?_
      exact Finite.isProper fits depth (finite.next (inner?_of_mem found inside))
    · rfl

/-- What holds the document of a value is like the value. -/
theorem Holds.alike {depth : Nat} {value twin : Value} (grows : store.Extends after)
    (whole : store.Whole value) (finite : store.Finite value) (within : store.Within value depth)
    (holds : after.Holds (store.documentTo depth value) twin) : after.Alike value twin := by
  induction depth using Nat.strongRecOn generalizing value twin with
  | ind depth ih =>
    cases value with
    | null | bool | text =>
      rw [documentTo] at holds
      cases holds
      exact .plain (fun _ same => by cases same) (Value.same_self rfl)
    | number double =>
      obtain ⟨numeral, written, equals⟩ := Document.exists_ofDouble (@finite [] double rfl)
      rw [documentTo, written] at holds
      cases holds
      exact .plain (fun _ same => by cases same) ((Double.equals_comm _ _).trans equals)
    | composite id =>
      obtain ⟨contents, present⟩ := Option.ne_none_iff_exists'.mp (whole [] id rfl)
      obtain ⟨less, lower, written⟩ := within.documentTo present
      rw [written] at holds
      subst lower
      have inside {name : SlotName} {part twin : Value}
          (entry : store.inner? (.composite id) name = some part)
          (holds : after.Holds (store.documentTo less part) twin) : after.Alike part twin :=
        ih less (Nat.lt_succ_self less) (whole.part (part?_cons entry []))
          (finite.next entry) (within.next entry) holds
      cases contents with
      | array items =>
        cases holds with
        | array there length each =>
          refine .array (grows _ _ present) there ((List.length_map _).symm.trans length)
            fun pair => ?_
          obtain ⟨_, entry⟩ := exists_name_of_mem present (List.of_mem_zip pair).1
          refine inside entry (each ?_)
          rw [List.zip_map_left]
          exact List.mem_map_of_mem pair
      | object members =>
        cases holds with
        | object there keys each =>
          rw [List.map_map] at keys
          have listed := Assoc.entries_ofList (keys ▸ members.distinct)
          refine .object (grows _ _ present) there
            (by rw [Assoc.keys, Assoc.keys, listed]; exact keys) fun {member _} pair => ?_
          rw [listed] at pair
          have entry := inner?_of_mem present (List.of_mem_zip pair).1
          refine inside entry (@each (member.1, _) _ ?_)
          rw [List.zip_map_left]
          exact List.mem_map_of_mem pair

end Store

/-- A document whose numbers are whole and below `2 ^ 53`. No key of an object is repeated, and no
array has more elements than there are indices. -/
inductive Document.Exact : Document → Prop
  | null : Exact .null
  | bool (truth : Bool) : Exact (.bool truth)
  | number {n : Int} (small : n.natAbs < 2 ^ 53) : Exact (.number (.whole n))
  | text (characters : String) : Exact (.text characters)
  | array {items : List Document} (few : items.length < indexBound)
    (exact : ∀ item ∈ items, Exact item) : Exact (.array items)
  | object {members : List (String × Document)} (distinct : (members.map Prod.fst).Nodup)
    (exact : ∀ member ∈ members, Exact member.2) : Exact (.object members)

theorem Document.Exact.isProper {document : Document} (exact : document.Exact) :
    document.isProper = true := by
  induction exact with
  | null | bool | text => rfl
  | @number n small =>
    rw [Document.isProper, Numeral.toDouble, Double.not_isNaN_ofInt]
    rfl
  | array few _ proper =>
    rw [Document.isProper, areProper_eq_all, List.all_eq_true.mpr proper, Bool.and_true]
    exact decide_eq_true few
  | object _ _ proper =>
    rw [Document.isProper, areProperUnder_eq_all, List.all_eq_true]
    exact proper

namespace Store

/-- What holds an exact document is written as that document. -/
theorem Holds.documentTo_eq {document : Document} (exact : document.Exact)
    (holds : store.Holds document value) (within : store.Within value depth) :
    store.documentTo depth value = document := by
  induction exact generalizing value depth with
  | null | bool | text =>
    cases holds
    rw [documentTo]
  | number small =>
    cases holds
    rw [documentTo, Numeral.toDouble, Document.ofDouble, Double.toInt?_ofInt small]
  | array _ _ ih =>
    cases holds with
    | array present length each =>
      obtain ⟨depth, rfl, written⟩ := within.documentTo present
      refine written.trans (congrArg Document.array (map_eq_of_zip length fun pair => ?_))
      obtain ⟨member, inside⟩ := List.of_mem_zip pair
      obtain ⟨_, entry⟩ := exists_name_of_mem present inside
      exact ih _ member (each pair) (within.next entry)
  | object distinct _ ih =>
    cases holds with
    | object present keys each =>
      obtain ⟨depth, rfl, written⟩ := within.documentTo present
      have listed := Assoc.entries_ofList (keys ▸ distinct)
      obtain ⟨length, tied⟩ := List.forall₂_iff_zip.mp (Entries.tied_of_zip keys each)
      rw [written, Composite.document, listed]
      refine congrArg Document.object (map_eq_of_zip length fun pair => ?_)
      obtain ⟨stands, inside⟩ := List.of_mem_zip pair
      have entry := inner?_of_mem present (listed.symm ▸ inside)
      exact Prod.ext (tied pair).1.symm (ih _ stands (tied pair).2 (within.next entry))

/-- A value without cycles whose numbers are finite is read back from its document: with equal
contents, with the same keys in the same order, and made of composites of its own, each of which
stands at one place. And a document of whole numbers below `2 ^ 53` is read back from the value
that it is loaded into. -/
theorem documents_round_trip (whole : store.Whole value) (acyclic : store.Acyclic value)
    (finite : store.Finite value) (fits : store.Fits) :
    (∃ twin after, (load (store.document value)).run store = (twin, after) ∧
      after.equal value twin = true ∧ after.Alike value twin ∧ after.Apart value twin ∧
      after.Unshared twin) ∧
    ∀ document : Document, document.Exact → ∀ start : Store, ∃ loaded after,
      (load document).run start = (loaded, after) ∧ after.document loaded = document := by
  constructor
  · have result := loaded _ (Finite.isProper fits store.depthBound finite) store
    have grows := result.brings.grows
    have intact := result.brings.intact _ List.mem_cons_self
    have alike := Holds.alike grows whole finite acyclic.within result.holds
    exact ⟨_, _, rfl, alike.equalTo
      (Acyclic.within (Spares.acyclic (whole.contents?_extended grows) acyclic)), alike,
      result.brings.apart_of_whole whole, intact.unshared⟩
  · intro document exact start
    have result := loaded document exact.isProper start
    have intact := result.brings.intact _ List.mem_cons_self
    exact ⟨_, _, rfl, result.holds.documentTo_eq exact (Unshared.within intact.unshared)⟩

/-- An array whose two elements are one and the same array, which holds a negative zero. -/
def sharing : Store := ⟨#[.array [.number (.zero true)], .array [.composite 0, .composite 0]]⟩

theorem part_of_sharing {path : List SlotName} {part : Value}
    (there : sharing.part? (.composite 1) path = some part) :
    path.length = 0 ∧ part = .composite 1 ∨ path.length = 1 ∧ part = .composite 0 ∨
      part = .number (.zero true) := by
  match path with
  | [] => exact .inl ⟨rfl, (Option.some.inj there).symm⟩
  | .index 0 :: path | .index 1 :: path =>
    refine .inr ?_
    match path with
    | [] => exact .inl ⟨rfl, (Option.some.inj there).symm⟩
    | .index 0 :: [] => exact .inr (Option.some.inj there).symm
    | .index 0 :: .index _ :: _ | .index 0 :: .key _ :: _ | .index (_ + 1) :: _
    | .key _ :: _ => cases there
  | .index (_ + 2) :: _ | .key _ :: _ => cases there

theorem fits_sharing : sharing.Fits := by
  intro value items array
  match value with
  | .composite 0 | .composite 1 =>
    cases array
    decide
  | .composite (_ + 2) | .null | .bool _ | .number _ | .text _ => cases array

theorem whole_sharing : sharing.Whole (.composite 1) := by
  intro path id there
  rcases part_of_sharing there with ⟨_, top⟩ | ⟨_, inner⟩ | number
  · cases top
    nofun
  · cases inner
    nofun
  · cases number

theorem acyclic_sharing : sharing.Acyclic (.composite 1) := by
  intro path rest id first second
  have longer := @List.length_append _ path rest
  rcases part_of_sharing first with ⟨_, top⟩ | ⟨_, inner⟩ | number
  · cases top
    rcases part_of_sharing second with ⟨_, _⟩ | ⟨_, top⟩ | number
    · exact List.eq_nil_of_length_eq_zero (by omega)
    · cases top
    · cases number
  · cases inner
    rcases part_of_sharing second with ⟨_, top⟩ | ⟨_, _⟩ | number
    · cases top
    · exact List.eq_nil_of_length_eq_zero (by omega)
    · cases number
  · cases number

theorem documents_round_trip_sharing :
    ¬ sharing.Unshared (.composite 1) ∧
      ∃ twin after, (load (sharing.document (.composite 1))).run sharing = (twin, after) ∧
        after.equal (.composite 1) twin = true ∧ after.Alike (.composite 1) twin ∧
        after.Apart (.composite 1) twin ∧ after.Unshared twin := by
  refine ⟨fun unshared => ?_, (documents_round_trip whole_sharing acyclic_sharing ?_ fits_sharing).1⟩
  · exact absurd (@unshared [.index 0] [.index 1] 0 rfl rfl) (by decide)
  · intro path number there
    rcases part_of_sharing there with ⟨_, top⟩ | ⟨_, inner⟩ | number
    · cases top
    · cases inner
    · cases number
      rfl

end Store

end CodeTree
