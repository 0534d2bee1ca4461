/-
Loading a document. Every array and every object of a document becomes a composite of its own,
built after what stands in it, so that nothing is shared and a later part never comes upon an
earlier one. The loaded value stands for the document: it looks to a walk as the document looks,
and its tree has no more typed objects than the document. A value that is read back as a document
looks as the document looks, too.
-/

import CodeTree.Proofs.Counting
import CodeTree.Proofs.Terrains
import Mathlib.Algebra.Order.BigOperators.Group.List
import Mathlib.Algebra.Order.Group.Nat

namespace CodeTree

variable {after before store : Store} {part value : Value} {path : List SlotName}

/-! ### Repeated keys -/

namespace Entries

variable {α : Type}

/-- The last of the entries under each key. -/
def lasts : List (String × α) → List (String × α)
  | [] => []
  | entry :: rest => if entry.1 ∈ rest.map Prod.fst then lasts rest else entry :: lasts rest

theorem sublist_lasts (entries : List (String × α)) : (lasts entries).Sublist entries := by
  induction entries with
  | nil => exact .slnil
  | cons entry rest ih =>
    rw [lasts]
    split
    · exact ih.cons _
    · exact ih.cons_cons _

theorem nodup_lasts (entries : List (String × α)) : (lasts entries).Nodup := by
  induction entries with
  | nil => exact List.nodup_nil
  | cons entry rest ih =>
    rw [lasts]
    split
    · exact ih
    · rename_i absent
      refine List.nodup_cons.mpr ⟨fun member => absent ?_, ih⟩
      exact List.mem_map_of_mem ((sublist_lasts rest).subset member)

/-- What has been inserted last under a key is what is found. -/
theorem get?_foldl (entries : List (String × α)) (map : Assoc String α) (key : String) (value : α) :
    (entries.foldl (fun map entry => map.insert entry.1 entry.2) map).get? key = some value ↔
      (key, value) ∈ lasts entries ∨ key ∉ entries.map Prod.fst ∧ map.get? key = some value := by
  induction entries generalizing map with
  | nil => simp [lasts]
  | cons entry rest ih =>
    obtain ⟨first, item⟩ := entry
    have later : (key, value) ∈ lasts rest → key ∈ rest.map Prod.fst := fun member =>
      List.mem_map_of_mem ((sublist_lasts rest).subset member)
    rw [List.foldl_cons, ih, Assoc.get?_insert, lasts]
    by_cases same : key = first <;> by_cases again : first ∈ rest.map Prod.fst <;> grind

theorem perm_lasts (entries : List (String × α)) :
    (Assoc.ofList entries).entries.Perm (lasts entries) := by
  refine (List.perm_ext_iff_of_nodup (List.Nodup.of_map _ (Assoc.ofList entries).distinct)
    (nodup_lasts entries)).mpr fun (key, value) => ?_
  rw [Assoc.mem_entries, Assoc.ofList, get?_foldl]
  simp

/-- Where no key is repeated, every entry is found. -/
theorem get?_ofList {entries : List (String × α)} (distinct : (entries.map Prod.fst).Nodup)
    (key : String) : (Assoc.ofList entries).get? key = lookup key entries :=
  congrArg (lookup key) (Assoc.entries_ofList distinct)

/-- Entries under the same keys, one by one, with values that are related. -/
def Tied {α β : Type} (related : α → β → Prop) : List (String × α) → List (String × β) → Prop :=
  List.Forall₂ fun entry other => entry.1 = other.1 ∧ related entry.2 other.2

theorem tied_of_zip {β : Type} {related : α → β → Prop} {entries : List (String × α)}
    {others : List (String × β)} (keys : entries.map Prod.fst = others.map Prod.fst)
    (each : ∀ {entry other}, (entry, other) ∈ entries.zip others → related entry.2 other.2) :
    Tied related entries others := by
  induction entries generalizing others with
  | nil =>
    cases others with
    | nil => exact .nil
    | cons other more => cases keys
  | cons entry rest ih =>
    cases others with
    | nil => cases keys
    | cons other more =>
      obtain ⟨same, keys⟩ := List.cons.inj keys
      exact .cons ⟨same, each List.mem_cons_self⟩
        (ih keys fun pair => each (List.mem_cons_of_mem _ pair))

section Tied

variable {β : Type} {related : α → β → Prop} {entries : List (String × α)}
  {others : List (String × β)} (tied : Tied related entries others)

include tied

theorem Tied.keys : entries.map Prod.fst = others.map Prod.fst := by
  induction tied with
  | nil => rfl
  | cons first _ ih => rw [List.map_cons, List.map_cons, first.1, ih]

theorem Tied.lasts : Tied related (lasts entries) (Entries.lasts others) := by
  induction tied with
  | nil => exact .nil
  | cons first rest ih =>
    rw [Entries.lasts, Entries.lasts, first.1, Tied.keys rest]
    split
    · exact ih
    · exact .cons first ih

/-- Entries that are inserted one after another stay in step. -/
theorem Tied.rel_foldl {map : Assoc String α} {other : Assoc String β}
    (start : ∀ key, Option.Rel related (map.get? key) (other.get? key)) (key : String) :
    Option.Rel related ((entries.foldl (fun map pair => map.insert pair.1 pair.2) map).get? key)
      ((others.foldl (fun map pair => map.insert pair.1 pair.2) other).get? key) := by
  induction tied generalizing map other with
  | nil => exact start key
  | cons first _ ih =>
    refine ih fun name => ?_
    rw [Assoc.get?_insert, Assoc.get?_insert, first.1]
    split
    · exact .some first.2
    · exact start name

end Tied

end Entries

namespace Document

/-! ### Documents that can be loaded -/

mutual

/-- Whether a document is one that a text can stand for: no number of it is NaN, and no array has
more elements than there are indices. -/
def isProper : Document → Bool
  | number numeral => !numeral.toDouble.isNaN
  | array items => decide (items.length < indexBound) && areProper items
  | object members => areProperUnder members
  | _ => true
termination_by structural document => document

def areProper : List Document → Bool
  | [] => true
  | item :: rest => isProper item && areProper rest
termination_by structural items => items

def areProperUnder : List (String × Document) → Bool
  | [] => true
  | (_, item) :: rest => isProper item && areProperUnder rest
termination_by structural members => members

end

mutual

/-- How many places of a document, the document itself included, pass a test. Of a repeated key the
last occurrence counts. -/
def count (test : Document → Bool) : Document → Nat
  | array items => (test (array items)).toNat + countItems test items
  | object members => (test (object members)).toNat + countMembers test members
  | primitive => (test primitive).toNat
termination_by structural document => document

def countItems (test : Document → Bool) : List Document → Nat
  | [] => 0
  | item :: rest => count test item + countItems test rest
termination_by structural items => items

def countMembers (test : Document → Bool) : List (String × Document) → Nat
  | [] => 0
  | (key, item) :: rest =>
    (if key ∈ rest.map Prod.fst then 0 else count test item) + countMembers test rest
termination_by structural members => members

end

section Counts

variable (test : Document → Bool)

theorem countItems_eq (items : List Document) :
    countItems test items = (items.map (count test)).sum := by
  induction items with
  | nil => rfl
  | cons item rest ih =>
    rw [countItems, ih, List.map_cons, List.sum_cons]

theorem countMembers_eq (members : List (String × Document)) :
    countMembers test members =
      ((Entries.lasts members).map fun member => member.2.count test).sum := by
  induction members with
  | nil => rfl
  | cons member rest ih =>
    rw [countMembers, ih, Entries.lasts]
    split
    · exact Nat.zero_add _
    · rw [List.map_cons, List.sum_cons]

end Counts

/-- The document of a node. -/
def nodeOf (type : NodeType) (fields : List (String × Document)) : Document :=
  .object (("type", .text type.name) :: fields)

def nameOf (name : String) : Document := nodeOf .identifier [("name", .text name)]

/-- Whether a document is an array or an object. -/
def isComposite : Document → Bool
  | array _ | object _ => true
  | _ => false

end Document

/-- What contents are written as. -/
def Composite.document (write : Value → Document) : Composite → Document
  | .array items => .array (items.map write)
  | .object members => .object (members.entries.map fun entry => (entry.1, write entry.2))

namespace Store

/-! ### Growing stores -/

/-- What one store has, another has as well. -/
def Extends (before after : Store) : Prop :=
  ∀ value contents, before.contents? value = some contents → after.contents? value = some contents

theorem Extends.refl (store : Store) : store.Extends store := fun _ _ present => present

theorem Extends.trans {first second third : Store} (left : first.Extends second)
    (right : second.Extends third) : first.Extends third :=
  fun value contents present => right value contents (left value contents present)

theorem extends_grown (store : Store) (contents : Composite) :
    store.Extends (store.grown contents) := by
  intro value old present
  rw [contents?_grown_other store contents]
  · exact present
  · rintro rfl
    rw [contents?_size] at present
    cases present

section Extended

variable (grows : before.Extends after) (whole : before.Whole value)

include grows whole

theorem Whole.contents?_extended : before.Spares after value := by
  intro path part there
  cases present : before.contents? part with
  | some contents => exact grows part contents present
  | none =>
    cases part with
    | composite id => exact absurd present (whole path id there)
    | _ => rfl

theorem Whole.part?_extended (path : List SlotName) :
    after.part? value path = before.part? value path :=
  Spares.part? (whole.contents?_extended grows) path

omit whole in
theorem Intact.extended (intact : before.Intact value) : after.Intact value :=
  Spares.intact (intact.whole.contents?_extended grows) intact

end Extended

/-! ### Values that stand for documents -/

/-- A value stands for a document. What stands in an object stands for the members one by one, also
where a later one takes the key. -/
inductive Holds (store : Store) : Document → Value → Prop
  | null : Holds store .null .null
  | bool (truth : Bool) : Holds store (.bool truth) (.bool truth)
  | number (numeral : Numeral) : Holds store (.number numeral) (.number numeral.toDouble)
  | text (characters : String) : Holds store (.text characters) (.text characters)
  | array {items : List Document} {values : List Value} {value : Value}
    (present : store.contents? value = some (.array values)) (length : items.length = values.length)
    (each : ∀ {item part}, (item, part) ∈ items.zip values → Holds store item part) :
    Holds store (.array items) value
  | object {members : List (String × Document)} {entries : List (String × Value)} {value : Value}
    (present : store.contents? value = some (.object (.ofList entries)))
    (keys : members.map Prod.fst = entries.map Prod.fst)
    (each : ∀ {member entry}, (member, entry) ∈ members.zip entries →
      Holds store member.2 entry.2) : Holds store (.object members) value

theorem Holds.extended (grows : before.Extends after) {document : Document}
    (holds : before.Holds document value) : after.Holds document value := by
  induction holds with
  | null => exact .null
  | bool truth => exact .bool truth
  | number numeral => exact .number numeral
  | text characters => exact .text characters
  | array present length _ ih =>
    exact .array (grows _ _ present) length ih
  | object present keys _ ih =>
    exact .object (grows _ _ present) keys ih

/-! ### What the values look like -/

theorem rel_getElem? {α β : Type} {related : α → β → Prop} {items : List α} {others : List β}
    (all : List.Forall₂ related items others) (position : Nat) :
    Option.Rel related items[position]? others[position]? := by
  induction all generalizing position with
  | nil => exact .none
  | cons first _ ih =>
    cases position with
    | zero => exact .some first
    | succ position => exact ih position

/-- A value looks to a walk as the document that it stands for. -/
theorem similar_holds (store : Store) : Document.terrain.Similar store.terrain store.Holds where
  text {document value} holds := by
    cases holds with
    | array present | object present =>
      obtain ⟨id, rfl⟩ := exists_id_of_contents? present
      rfl
    | _ => rfl
  inner {document value} holds name := by
    show Option.Rel store.Holds (document.inner? name) (store.inner? value name)
    cases holds with
    | array present length each =>
      cases name with
      | key key =>
        rw [show store.inner? value (.key key) = none by simp [inner?, present]]
        exact .none
      | index position =>
        rw [inner?_array present]
        exact rel_getElem? (List.forall₂_iff_zip.mpr ⟨length, each⟩) position
    | object present keys each =>
      cases name with
      | index position =>
        rw [show store.inner? value (.index position) = none by simp [inner?, present]]
        exact .none
      | key key =>
        rw [inner?_object present]
        exact (Entries.tied_of_zip keys each).rel_foldl (fun _ => .none) key
    | _ => exact .none

/-! ### How much there is of it -/

/-- Whatever stands for something that passes one test passes another. -/
def Covers (store : Store) (test : Document → Bool) (passes : Tree → Bool) : Prop :=
  ∀ document value, store.Holds document value → store.Unshared value →
    passes (store.tree value) = true → test document = true

theorem sum_le_of_zip {α β : Type} {items : List α} {others : List β} {f : α → Nat} {g : β → Nat}
    (length : items.length = others.length)
    (each : ∀ {item other}, (item, other) ∈ items.zip others → g other ≤ f item) :
    (others.map g).sum ≤ (items.map f).sum :=
  List.Forall₂.sum_le_sum (List.forall₂_map_left_iff.mpr (List.forall₂_map_right_iff.mpr
    (List.Forall₂.flip (List.forall₂_iff_zip.mpr ⟨length, each⟩))))

section Counted

variable {test : Document → Bool} {passes : Tree → Bool}

section Covers

variable {document : Document} (covers : store.Covers test passes)
  (holds : store.Holds document value) (unshared : store.Unshared value)

include covers holds unshared

theorem Covers.verdict_le : (passes (store.tree value)).toNat ≤ (test document).toNat := by
  cases passed : passes (store.tree value) with
  | false => exact Nat.zero_le _
  | true => rw [covers document value holds unshared passed]

/-- The tree of a value has no more places that pass than the document. -/
theorem Holds.count_le : (store.tree value).count passes ≤ document.count test := by
  induction holds with
  | null => exact covers.verdict_le .null unshared
  | bool truth => exact covers.verdict_le (.bool truth) unshared
  | number numeral => exact covers.verdict_le (.number numeral) unshared
  | text characters => exact covers.verdict_le (.text characters) unshared
  | array present length each ih =>
    have verdict := covers.verdict_le (.array present length each) unshared
    obtain ⟨id, rfl⟩ := exists_id_of_contents? present
    rw [tree_of_some unshared present] at verdict ⊢
    refine Nat.add_le_add verdict ?_
    show Tree.countItems passes _ ≤ _
    rw [Tree.countItems_eq, Document.countItems_eq, List.map_map]
    refine sum_le_of_zip length fun pair => ih pair ?_
    obtain ⟨_, entry⟩ := exists_name_of_mem present (List.of_mem_zip pair).2
    exact unshared.next entry
  | @object members entries _ present keys each ih =>
    have verdict := covers.verdict_le (.object present keys each) unshared
    obtain ⟨id, rfl⟩ := exists_id_of_contents? present
    rw [tree_of_some unshared present] at verdict ⊢
    refine Nat.add_le_add verdict ?_
    have total := ((Entries.perm_lasts entries).map fun entry =>
      (store.tree entry.2).count passes).sum_nat
    show Tree.countMembers passes _ ≤ _
    rw [Tree.countMembers_eq, Document.countMembers_eq, List.map_map]
    obtain ⟨lengths, least⟩ := List.forall₂_iff_zip.mp
      (@Entries.tied_of_zip _ _ (fun item part => store.Unshared part →
        (store.tree part).count passes ≤ item.count test) _ _ keys ih).lasts
    refine Nat.le_trans (Nat.le_of_eq total) (sum_le_of_zip lengths fun pair => (least pair).2 ?_)
    have listed := (Entries.perm_lasts entries).mem_iff.mpr (List.of_mem_zip pair).2
    show store.Unshared _
    exact unshared.next (inner?_of_mem present listed)

end Covers

end Counted

/-! ### Loading -/

/-- Values that have come into a store: nothing that was there stands in them, and no composite
stands in two of them. -/
structure Brings (before : Store) (values : List Value) (after : Store) : Prop where
  grows : before.Extends after
  size : before.composites.size ≤ after.composites.size
  fresh : ∀ value ∈ values, ∀ path id, after.part? value path = some (.composite id) →
    before.composites.size ≤ id
  intact : ∀ value ∈ values, after.Intact value
  apart : ∀ {position place : Nat} {value other path otherPath id},
    values[position]? = some value → values[place]? = some other →
    after.part? value path = some (.composite id) →
    after.part? other otherPath = some (.composite id) → position = place
  fits : before.Fits → after.Fits

theorem brings_nil (store : Store) : store.Brings [] store :=
  ⟨Extends.refl store, Nat.le_refl _, nofun, nofun, nofun, id⟩

theorem brings_plain (store : Store) (plain : ∀ id, value ≠ .composite id)
    (proper : value.isNaN = false) : store.Brings [value] store where
  grows := Extends.refl store
  size := Nat.le_refl _
  fresh part member path id there := by
    cases List.mem_singleton.mp member
    exact absurd there (part?_ne_composite plain id)
  intact part member := by
    cases List.mem_singleton.mp member
    exact intact_of_plain plain proper
  apart first second _ _ :=
    (of_getElem?_singleton first).1.trans (of_getElem?_singleton second).1.symm
  fits := id

theorem lt_size_of_contents? {id : CompositeId} (present : store.contents? (.composite id) ≠ none) :
    id < store.composites.size := by
  obtain ⟨contents, found⟩ := Option.ne_none_iff_exists'.mp present
  exact (Array.getElem?_eq_some_iff.mp found).1

/-- What comes later does not stand in what came before. -/
theorem Brings.cons {before mid after : Store} {value : Value} {values : List Value}
    (first : before.Brings [value] mid) (rest : mid.Brings values after) :
    before.Brings (value :: values) after := by
  have intact := first.intact value List.mem_cons_self
  have same := intact.whole.part?_extended rest.grows
  have below {path : List SlotName} {id : CompositeId}
      (there : after.part? value path = some (.composite id)) : id < mid.composites.size := by
    rw [same] at there
    exact lt_size_of_contents? (intact.whole path id there)
  refine ⟨first.grows.trans rest.grows, Nat.le_trans first.size rest.size, ?_, ?_, ?_,
    fun fits => rest.fits (first.fits fits)⟩
  · intro part member path id there
    rcases List.mem_cons.mp member with rfl | later
    · rw [same] at there
      exact first.fresh part List.mem_cons_self path id there
    · exact Nat.le_trans first.size (rest.fresh part later path id there)
  · intro part member
    rcases List.mem_cons.mp member with rfl | later
    · exact intact.extended rest.grows
    · exact rest.intact part later
  · intro position place part other path otherPath id here there reached otherReached
    cases position with
    | zero =>
      cases here
      cases place with
      | zero => rfl
      | succ place =>
        have old := below reached
        have new := rest.fresh other (List.mem_of_getElem? there) otherPath id otherReached
        exact absurd new (Nat.not_le_of_lt old)
    | succ position =>
      cases place with
      | zero =>
        cases there
        have old := below otherReached
        have new := rest.fresh part (List.mem_of_getElem? here) path id reached
        exact absurd new (Nat.not_le_of_lt old)
      | succ place => rw [rest.apart here there reached otherReached]

section Built

variable {mid : Store} {values : List Value} (brings : before.Brings values mid)
  {contents : Composite} {labels : List SlotName}
  (drawn : ∀ name part, contents.inner? name = some part →
    ∃ position : Nat, labels[position]? = some name ∧ values[position]? = some part)

include brings drawn

/-- A composite that is built from values that came into a store. -/
theorem Brings.built
    (small : mid.Fits → ∀ {items}, contents = .array items → items.length < indexBound) :
    before.Brings [.composite mid.composites.size] (mid.grown contents) := by
  have intact {name : SlotName} {value : Value} (entry : contents.inner? name = some value) :
      mid.Intact value := by
    obtain ⟨_, _, held⟩ := drawn name value entry
    exact brings.intact value (List.mem_of_getElem? held)
  refine ⟨brings.grows.trans (extends_grown mid contents), ?_, ?_, ?_, ?_, ?_⟩
  · exact Nat.le_trans brings.size (by simp [grown])
  · intro value member path id there
    cases List.mem_singleton.mp member
    rcases part_of_grown (fun entry => (intact entry).whole) there with
      ⟨_, top⟩ | ⟨name, _, value, _, entry, reached⟩
    · cases top
      exact brings.size
    · obtain ⟨_, _, held⟩ := drawn name value entry
      exact brings.fresh value (List.mem_of_getElem? held) _ id reached
  · intro value member
    cases List.mem_singleton.mp member
    refine intact_grown intact fun entry entryToo reached reachedToo => ?_
    obtain ⟨_, labelled, held⟩ := drawn _ _ entry
    obtain ⟨_, labelledToo, heldToo⟩ := drawn _ _ entryToo
    cases brings.apart held heldToo reached reachedToo
    exact Option.some.inj (labelled.symm.trans labelledToo)
  · intro position place _ _ _ _ _ first second _ _
    exact (of_getElem?_singleton first).1.trans (of_getElem?_singleton second).1.symm
  · exact fun fits => Fits.grown contents (brings.fits fits) (small (brings.fits fits))

end Built

theorem drawn_array (values : List Value) (name : SlotName) (part : Value)
    (entry : (Composite.array values).inner? name = some part) :
    ∃ position : Nat, ((List.range values.length).map SlotName.index)[position]? = some name ∧
      values[position]? = some part := by
  cases name with
  | key key => cases entry
  | index position =>
    have entry : values[position]? = some part := entry
    have inside := (List.getElem?_eq_some_iff.mp entry).1
    exact ⟨position, by simp [inside], entry⟩

theorem drawn_object (pairs : List (String × Value)) (name : SlotName) (part : Value)
    (entry : (Composite.object (.ofList pairs)).inner? name = some part) :
    ∃ position : Nat, (pairs.map fun pair => SlotName.key pair.1)[position]? = some name ∧
      (pairs.map Prod.snd)[position]? = some part := by
  cases name with
  | index position => cases entry
  | key key =>
    have last := (Entries.perm_lasts pairs).mem_iff.mp (Assoc.mem_entries.mpr entry)
    obtain ⟨position, there⟩ := List.mem_iff_getElem?.mp ((Entries.sublist_lasts pairs).subset last)
    exact ⟨position, by rw [List.getElem?_map, there]; rfl, by rw [List.getElem?_map, there]; rfl⟩

theorem size_grown (store : Store) (contents : Composite) :
    (store.grown contents).composites.size = store.composites.size + 1 := by
  simp [grown]

theorem fits_empty : empty.Fits := by
  intro value items array
  cases value <;> simp [contents?, empty] at array

/-- A document has been loaded into a store. -/
structure Loaded (document : Document) (before : Store) (result : Value × Store) : Prop where
  brings : before.Brings [result.1] result.2
  holds : result.2.Holds document result.1
  size : before.composites.size + document.count Document.isComposite ≤ result.2.composites.size

mutual

/-- A proper document is loaded into composites of its own. -/
theorem loaded : ∀ (document : Document), document.isProper = true → ∀ store : Store,
    Loaded document store ((load document).run store)
  | .null, _, store => ⟨brings_plain store nofun rfl, .null, Nat.le_refl _⟩
  | .bool truth, _, store => ⟨brings_plain store nofun rfl, .bool truth, Nat.le_refl _⟩
  | .number numeral, proper, store => by
    rw [Document.isProper, Bool.not_eq_true'] at proper
    exact ⟨brings_plain store nofun proper, .number numeral, Nat.le_refl _⟩
  | .text characters, _, store =>
    ⟨brings_plain store nofun rfl, .text characters, Nat.le_refl _⟩
  | .array items, proper, store => by
    rw [Document.isProper, Bool.and_eq_true, decide_eq_true_eq] at proper
    obtain ⟨brings, all, size⟩ := loadedItems items proper.2 store
    obtain ⟨length, each⟩ := List.forall₂_iff_zip.mp all
    refine ⟨brings.built (drawn_array _) ?_, .array (contents?_grown_self _ _) length fun pair =>
      (each pair).extended (extends_grown _ _), ?_⟩
    · rintro _ _ ⟨⟩
      exact Nat.lt_of_le_of_lt (Nat.le_of_eq length.symm) proper.1
    · refine Nat.le_trans ?_ (Nat.le_of_eq (size_grown _ _).symm)
      show _ + (1 + _) ≤ ((loadItems items).run store).2.composites.size + 1
      omega
  | .object members, proper, store => by
    rw [Document.isProper] at proper
    obtain ⟨brings, tied, size⟩ := loadedMembers members proper store
    obtain ⟨_, each⟩ := List.forall₂_iff_zip.mp tied
    refine ⟨brings.built (drawn_object _) (fun _ => nofun), .object (contents?_grown_self _ _)
      tied.keys fun pair => (each pair).2.extended (extends_grown _ _), ?_⟩
    refine Nat.le_trans ?_ (Nat.le_of_eq (size_grown _ _).symm)
    show _ + (1 + _) ≤ ((loadMembers members).run store).2.composites.size + 1
    omega

theorem loadedItems : ∀ (items : List Document), Document.areProper items = true →
    ∀ store : Store, store.Brings ((loadItems items).run store).1 ((loadItems items).run store).2 ∧
      List.Forall₂ ((loadItems items).run store).2.Holds items ((loadItems items).run store).1 ∧
      store.composites.size + Document.countItems Document.isComposite items ≤
        ((loadItems items).run store).2.composites.size
  | [], _, store => ⟨brings_nil store, .nil, Nat.le_refl _⟩
  | item :: rest, proper, store => by
    rw [Document.areProper, Bool.and_eq_true] at proper
    have first := loaded item proper.1 store
    obtain ⟨brings, all, size⟩ := loadedItems rest proper.2 ((load item).run store).2
    refine ⟨first.brings.cons brings, .cons (first.holds.extended brings.grows) all, ?_⟩
    refine Nat.le_trans ?_ size
    rw [Document.countItems, ← Nat.add_assoc]
    exact Nat.add_le_add_right first.size _

theorem loadedMembers : ∀ (members : List (String × Document)),
    Document.areProperUnder members = true → ∀ store : Store,
      store.Brings (((loadMembers members).run store).1.map Prod.snd)
        ((loadMembers members).run store).2 ∧
      Entries.Tied ((loadMembers members).run store).2.Holds members
        ((loadMembers members).run store).1 ∧
      store.composites.size + Document.countMembers Document.isComposite members ≤
        ((loadMembers members).run store).2.composites.size
  | [], _, store => ⟨brings_nil store, .nil, Nat.le_refl _⟩
  | (key, item) :: rest, proper, store => by
    rw [Document.areProperUnder, Bool.and_eq_true] at proper
    have first := loaded item proper.1 store
    obtain ⟨brings, tied, size⟩ := loadedMembers rest proper.2 ((load item).run store).2
    refine ⟨first.brings.cons brings, .cons ⟨rfl, first.holds.extended brings.grows⟩ tied, ?_⟩
    refine Nat.le_trans ?_ size
    rw [Document.countMembers, ← Nat.add_assoc]
    refine Nat.add_le_add_right (Nat.le_trans ?_ first.size) _
    split <;> omega

end

/-! ### Reading a value back -/

/-- What has contents is written as these, and what stands in them one level further up. -/
theorem Within.documentTo {contents : Composite} {depth : Nat} (within : store.Within value depth)
    (present : store.contents? value = some contents) : ∃ less, depth = less + 1 ∧
      store.documentTo depth value = contents.document (store.documentTo less) := by
  obtain ⟨less, rfl⟩ := within.exists_less present
  obtain ⟨id, rfl⟩ := exists_id_of_contents? present
  have found : store.composites[id]? = some contents := present
  refine ⟨less, rfl, ?_⟩
  rw [Store.documentTo, found]
  cases contents <;> rfl

theorem documentTo_plain (plain : store.contents? value = none) (depth : Nat) :
    store.documentTo depth value = empty.documentTo 0 value := by
  cases value with
  | composite id =>
    have missing : store.composites[id]? = none := plain
    cases depth with
    | zero => rfl
    | succ depth => simp only [documentTo, missing]
  | _ => rw [documentTo, documentTo]

theorem documentTo_of_none (plain : store.contents? value = none) (depth : Nat) :
    (store.documentTo depth value).text? = value.text? ∧
      ∀ name, (store.documentTo depth value).inner? name = none := by
  rw [documentTo_plain plain]
  cases value with
  | number number =>
    rw [documentTo, Document.ofDouble]
    split
    · exact ⟨rfl, fun _ => rfl⟩
    · split <;> exact ⟨rfl, fun _ => rfl⟩
  | _ => exact ⟨rfl, fun _ => rfl⟩

/-- What a value is read back as looks as the value does, at any depth that the value does not
reach. -/
theorem similar_documentTo (store : Store) : Document.terrain.Similar store.terrain
    (fun document value => ∃ depth, store.Within value depth ∧
      document = store.documentTo depth value) where
  text {document value} := by
    rintro ⟨depth, _, rfl⟩
    cases present : store.contents? value with
    | none => exact (documentTo_of_none present depth).1
    | some contents =>
      obtain ⟨id, rfl⟩ := exists_id_of_contents? present
      cases depth with
      | zero => rfl
      | succ depth =>
        rw [documentTo]
        split <;> rfl
  inner {document value} := by
    rintro ⟨depth, within, rfl⟩ name
    show Option.Rel _ ((store.documentTo depth value).inner? name) (store.inner? value name)
    cases present : store.contents? value with
    | none =>
      have nothing : store.inner? value name = none := by simp [inner?, present]
      rw [(documentTo_of_none present depth).2, nothing]
      exact .none
    | some contents =>
      obtain ⟨depth, rfl, written⟩ := within.documentTo present
      have deeper : (contents.document (store.documentTo depth)).inner? name =
          (contents.inner? name).map (store.documentTo depth) := by
        cases contents with
        | array items =>
          cases name with
          | key key => rfl
          | index position => exact List.getElem?_map
        | object members =>
          cases name with
          | index position => rfl
          | key key =>
            have distinct : ((members.entries.map fun entry =>
                (entry.1, store.documentTo depth entry.2)).map Prod.fst).Nodup := by
              rw [List.map_map]
              exact members.distinct
            exact (Entries.get?_ofList distinct key).trans
              (Entries.lookup_map (store.documentTo depth) key members.entries)
      rw [written, deeper, ← inner?_of_contents present]
      cases entry : store.inner? value name with
      | none => exact .none
      | some part => exact .some ⟨depth, within.next entry, rfl⟩

end Store

end CodeTree
