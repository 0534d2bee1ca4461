/-
Completing objects. When the children of an object are collected, declared fields that it lacks and
that have a default are filled in. Objects are supplied with the defaults that they want, in the
order of declaration and behind what they hold; nothing else is written to, and each empty array
that comes in is one of its own. An object that has been completed wants nothing more, so that it
does not matter how often it is come to.
-/

import CodeTree.Proofs.Collecting

namespace CodeTree

variable {world : World} {after before last origin store : Store} {root value : Value}
  {c : CursorId} {members : Assoc String Value} {names : List String} {type : NodeType}
  {key : String}

/-! ### Defaults -/

namespace NodeType

theorem mem_declareField {own field : Field} {fields : List Field}
    (member : field ∈ declareField fields own) : field ∈ fields ∨ field = own := by
  induction fields with
  | nil => exact .inr (List.mem_singleton.mp member)
  | cons first rest ih =>
    rw [declareField] at member
    split at member
    · rcases List.mem_cons.mp member with same | later
      · exact .inr same
      · exact .inl (List.mem_cons_of_mem _ later)
    · rcases List.mem_cons.mp member with rfl | later
      · exact .inl List.mem_cons_self
      · exact (ih later).imp_left (List.mem_cons_of_mem _)

theorem mem_foldl_declareField {own collected : List Field} {field : Field}
    (member : field ∈ own.foldl declareField collected) : field ∈ collected ∨ field ∈ own := by
  induction own generalizing collected with
  | nil => exact .inl member
  | cons first rest ih =>
    rcases ih member with early | late
    · rcases mem_declareField early with old | rfl
      · exact .inl old
      · exact .inr List.mem_cons_self
    · exact .inr (List.mem_cons_of_mem _ late)

/-- Every field of a type is some type's own. -/
theorem mem_collectFields {height : Nat} {collected : List Field} {field : Field}
    (member : field ∈ collectFields height collected type) :
    field ∈ collected ∨ ∃ origin : NodeType, field ∈ origin.ownFields := by
  induction height generalizing collected type with
  | zero => exact .inl member
  | succ height ih =>
    have through {bases : List NodeType} {collected : List Field}
        (member : field ∈ bases.foldl (collectFields height) collected) :
        field ∈ collected ∨ ∃ origin : NodeType, field ∈ origin.ownFields := by
      induction bases generalizing collected with
      | nil => exact .inl member
      | cons base rest onward => exact (onward member).elim ih .inr
    exact (mem_foldl_declareField member).elim through fun own => .inr ⟨type, own⟩

/-- No type is filled in by default, and of second branches only null. -/
theorem default_of_ownField {field : Field} (member : field ∈ type.ownFields)
    {default : FieldDefault} (filled : field.default? = some default) :
    field.name ≠ "type" ∧ (field.name = "alternate" → default = .null) := by
  have checked : (type.ownFields.all fun field => field.default?.all fun default =>
      field.name != "type" && (field.name != "alternate" || default == .null)) = true := by
    cases type <;> rfl
  have known := List.all_eq_true.mp checked field member
  rw [filled, Option.all_some, Bool.and_eq_true, Bool.or_eq_true, bne_iff_ne, bne_iff_ne,
    beq_iff_eq] at known
  exact ⟨known.1, known.2.resolve_left ∘ not_not_intro⟩

end NodeType

namespace FieldDefault

/-- The value of a default is a primitive, or an empty array that is new. -/
theorem toValue_cases (default : FieldDefault) (store : Store) :
    (∃ value, default.toValue.run store = (value, store) ∧ (∀ id, value ≠ .composite id) ∧
      value.isNaN = false) ∨
    default.toValue.run store = (.composite store.composites.size, store.grown (.array [])) := by
  cases default with
  | emptyArray => exact .inr rfl
  | _ => exact .inl ⟨_, rfl, nofun, rfl⟩

end FieldDefault

section Default

variable {default : FieldDefault} {name : String}
  (found : store.fieldDefault? value name = some default)

include found

/-- A default comes from a field that some type declares. -/
theorem Store.ownField_of_fieldDefault? :
    ∃ (own : NodeType) (field : Field), field ∈ own.ownFields ∧ field.name = name ∧
      field.default? = some default := by
  obtain ⟨type, _, declared⟩ := Option.bind_eq_some_iff.mp found
  obtain ⟨field, among, filled⟩ := Option.bind_eq_some_iff.mp declared
  have named : field.name = name := by
    simpa using List.find?_some among
  rcases NodeType.mem_collectFields (List.mem_of_find?_eq_some among) with impossible | ⟨own, member⟩
  · cases impossible
  · exact ⟨own, field, member, named, filled⟩

theorem Store.fieldDefault?_eq_some : name ≠ "type" ∧ (name = "alternate" → default = .null) := by
  obtain ⟨_, _, own, rfl, filled⟩ := Store.ownField_of_fieldDefault? found
  exact NodeType.default_of_ownField own filled

end Default

namespace FieldDefault

/-! ### The values of defaults -/

/-- A value is what a default stands for. An empty array is one that was not there before. -/
def Stands (before after : Store) : FieldDefault → Value → Prop
  | null, value => value = .null
  | bool truth, value => value = .bool truth
  | text characters, value => value = .text characters
  | emptyArray, value => before.contents? value = none ∧ after.contents? value = some (.array [])

section Stands

variable {default : FieldDefault} (stands : default.Stands before after value)

include stands

theorem Stands.bare : after.Bare value := by
  cases default with
  | emptyArray => exact .inr stands.2
  | _ =>
    cases stands
    exact .inl nofun

theorem Stands.new : before.contents? value = none := by
  cases default with
  | emptyArray => exact stands.1
  | _ =>
    cases stands
    rfl

theorem Stands.imp (earlier : before.contents? value = none → origin.contents? value = none)
    (later : after.contents? value = some (.array []) → last.contents? value = some (.array [])) :
    default.Stands origin last value := by
  cases default with
  | emptyArray => exact ⟨earlier stands.1, later stands.2⟩
  | _ => exact stands

theorem Stands.null (isNull : default = .null) : value = .null := by
  subst isNull
  exact stands

end Stands

/-- A store as it is when the value of a default has been made. -/
structure Made (default : FieldDefault) (before after : Store) (value : Value) : Prop where
  stands : default.Stands before after value
  stays : before.Stays after
  member : ∀ other name, after.member other name = before.member other name

end FieldDefault

namespace Store

/-- An empty array more is no member of anything. -/
theorem member_grown (store : Store) (value : Value) (key : String) :
    (store.grown (.array [])).member value key = store.member value key := by
  by_cases new : value = .composite store.composites.size
  · subst new
    rw [Store.member, Store.member, Store.members?, Store.members?, contents?_grown_self,
      contents?_size]
  · rw [Store.member, Store.member, Store.members?, Store.members?, contents?_grown_other _ _ new]

theorem stays_grown (store : Store) (contents : Composite) : store.Stays (store.grown contents) := by
  intro value inside present
  rw [contents?_grown_other, present]
  rintro rfl
  rw [contents?_size] at present
  cases present

end Store

/-- Keys of fields that have no default, whatever type declares them. -/
def NodeType.plainKeys : List String := ["operator", "value", "comments"]

theorem Store.fieldDefault?_plain (plain : key ∈ NodeType.plainKeys) (store : Store) (value : Value) :
    store.fieldDefault? value key = none := by
  refine Option.eq_none_iff_forall_ne_some.mpr fun default found => ?_
  obtain ⟨own, field, member, named, filled⟩ := ownField_of_fieldDefault? found
  have checked : (own.ownFields.all fun field =>
      field.default?.isNone || !NodeType.plainKeys.contains field.name) = true := by
    cases own <;> rfl
  have known := List.all_eq_true.mp checked field member
  rw [filled, named, List.contains_iff_mem.mpr plain] at known
  cases known

theorem FieldDefault.made_toValue (default : FieldDefault) (store : Store) :
    default.Made store (default.toValue.run store).2 (default.toValue.run store).1 := by
  cases default with
  | emptyArray =>
    exact ⟨⟨store.contents?_size, store.contents?_grown_self _⟩, store.stays_grown _,
      store.member_grown⟩
  | _ => exact ⟨rfl, .refl _, fun _ _ => rfl⟩

namespace Store

/-! ### What an object wants -/

/-- The defaults of some fields of a value that are missing, in order. -/
def missing (store : Store) (value : Value) (names : List String) : List (String × FieldDefault) :=
  names.filterMap fun name =>
    if store.hasMember value name then none
    else (store.fieldDefault? value name).map (name, ·)

/-- The defaults of the declared fields that a typed object lacks, in the order of declaration. -/
def lacking (store : Store) (value : Value) : List (String × FieldDefault) :=
  (store.type? value).elim [] fun type => store.missing value type.fieldNames

theorem missing_append (store : Store) (value : Value) (names others : List String) :
    store.missing value (names ++ others) =
      store.missing value names ++ store.missing value others :=
  List.filterMap_append

theorem mem_missing {want : String × FieldDefault} (member : want ∈ store.missing value names) :
    want.1 ∈ names ∧ store.hasMember value want.1 = false ∧
      store.fieldDefault? value want.1 = some want.2 := by
  obtain ⟨name, among, found⟩ := List.mem_filterMap.mp member
  split at found
  · cases found
  · rename_i lacks
    obtain ⟨default, declared, rfl⟩ := Option.map_eq_some_iff.mp found
    exact ⟨among, Bool.eq_false_iff.mpr lacks, declared⟩

/-- Where members and types are the same, the same is missing. -/
theorem missing_congr (type : after.type? value = before.type? value)
    (has : ∀ name ∈ names, after.hasMember value name = before.hasMember value name) :
    after.missing value names = before.missing value names := by
  refine List.filterMap_congr fun name among => ?_
  rw [has name among, fieldDefault?, type, fieldDefault?]

/-- An untyped value misses nothing. -/
theorem missing_of_untyped (untyped : store.type? value = none) (names : List String) :
    store.missing value names = [] := by
  refine List.filterMap_eq_nil_iff.mpr fun name _ => ?_
  rw [fieldDefault?, untyped]
  split <;> rfl

theorem lacking_of_untyped (untyped : store.type? value = none) : store.lacking value = [] := by
  rw [lacking, untyped]
  rfl

/-- Only objects lack anything. -/
theorem exists_members_of_lacking (lacks : store.lacking value ≠ []) :
    ∃ members, store.contents? value = some (.object members) := by
  cases typed : store.type? value with
  | none => exact absurd (lacking_of_untyped typed) lacks
  | some type =>
    obtain ⟨_, members, rfl, object⟩ := exists_members typed
    exact ⟨members, object⟩

theorem lacking_of_not_object
    (other : ∀ members, store.contents? value ≠ some (.object members)) :
    store.lacking value = [] := by
  by_contra lacks
  obtain ⟨members, object⟩ := exists_members_of_lacking lacks
  exact other members object

theorem hasMember_iff (object : store.contents? value = some (.object members)) :
    store.hasMember value key = true ↔ key ∈ members.entries.map Prod.fst := by
  rw [hasMember, members?, object]
  constructor
  · intro has
    obtain ⟨value, found⟩ := Option.isSome_iff_exists.mp has
    exact List.mem_map.mpr ⟨_, Assoc.mem_entries.mpr found, rfl⟩
  · intro member
    obtain ⟨entry, inside, rfl⟩ := List.mem_map.mp member
    exact Option.isSome_iff_exists.mpr ⟨_, Assoc.mem_entries.mp inside⟩

/-! ### Supplies -/

/-- A composite has come under a key that an object lacked. -/
structure New (before after : Store) (value : Value) (key : String) (id : CompositeId) : Prop where
  known : before.contents? value ≠ none
  absent : before.inner? value (.key key) = none
  entry : after.inner? value (.key key) = some (.composite id)

/-- Entries stand for the defaults that are wanted, one for one. -/
def Supplies (before after : Store) (wants : List (String × FieldDefault))
    (added : List (String × Value)) : Prop :=
  List.Forall₂ (fun want entry => entry.1 = want.1 ∧ want.2.Stands before after entry.2) wants added

section Supplies

variable {wants : List (String × FieldDefault)} {added : List (String × Value)}
  (supplies : before.Supplies after wants added)

include supplies

theorem Supplies.keys : added.map Prod.fst = wants.map Prod.fst := by
  induction supplies with
  | nil => rfl
  | cons pair _ ih => rw [List.map_cons, List.map_cons, pair.1, ih]

theorem Supplies.wanted {entry : String × Value} (member : entry ∈ added) :
    ∃ want ∈ wants, entry.1 = want.1 ∧ want.2.Stands before after entry.2 := by
  induction supplies with
  | nil => cases member
  | @cons want _ _ _ pair _ ih =>
    rcases List.mem_cons.mp member with rfl | later
    · exact ⟨want, List.mem_cons_self, pair⟩
    · obtain ⟨other, among, pairToo⟩ := ih later
      exact ⟨other, List.mem_cons_of_mem _ among, pairToo⟩

theorem Supplies.imp
    (earlier : ∀ value, before.contents? value = none → origin.contents? value = none)
    (later : ∀ value, after.contents? value = some (.array []) →
      last.contents? value = some (.array [])) : origin.Supplies last wants added :=
  List.Forall₂.imp (fun _ _ pair => ⟨pair.1, pair.2.imp (earlier _) (later _)⟩) supplies

end Supplies

/-- From one store to another, objects have come to hold what they want behind what they held, and
nothing else has changed. No two empty arrays that have come are the same. -/
structure Supplied (before after : Store) (wants : Value → List (String × FieldDefault)) :
    Prop where
  array : ∀ {value items}, before.contents? value = some (.array items) →
    after.contents? value = some (.array items)
  object : ∀ {value members}, before.contents? value = some (.object members) →
    ∃ more added, after.contents? value = some (.object more) ∧
      more.entries = members.entries ++ added ∧
      before.Supplies after (wants value) added
  tame : ∀ {value want}, want ∈ wants value →
    want.1 ≠ "type" ∧ (want.1 = "alternate" → want.2 = .null)
  apart : ∀ {value other key name id}, before.New after value key id →
    before.New after other name id → value = other ∧ key = name

theorem supplied_of_stays (stays : before.Stays after) : before.Supplied after fun _ => [] where
  array := stays _ _
  object {value members} present :=
    ⟨members, [], stays _ _ present, (List.append_nil _).symm, .nil⟩
  tame := nofun
  apart {value other key name id} new _ := by
    obtain ⟨contents, present⟩ := Option.ne_none_iff_exists'.mp new.known
    have entry := new.entry
    rw [inner?_congr ((stays _ _ present).trans present.symm), new.absent] at entry
    cases entry

section Supplied

variable {wants : Value → List (String × FieldDefault)} (supplied : before.Supplied after wants)

include supplied

theorem Supplied.filled : before.Filled after where
  array _ _ := supplied.array
  object value members present := by
    obtain ⟨more, added, still, entries, supplies⟩ := supplied.object present
    refine ⟨more, added, still, entries, fun entry member => ?_⟩
    obtain ⟨want, wanted, same, stands⟩ := supplies.wanted member
    obtain ⟨untyped, null⟩ := supplied.tame wanted
    rw [same]
    exact ⟨untyped, stands.bare, fun named => stands.null (null named)⟩

theorem Supplied.contents?_of_none (nothing : after.contents? value = none) :
    before.contents? value = none := by
  by_contra known
  exact supplied.filled.contents?_ne_none known nothing

/-- Who gets nothing is left alone. -/
theorem Supplied.stays {contents : Composite} (nothing : wants value = [])
    (present : before.contents? value = some contents) : after.contents? value = some contents := by
  cases contents with
  | array items => exact supplied.array present
  | object members =>
    obtain ⟨more, added, still, entries, supplies⟩ := supplied.object present
    rw [nothing] at supplies
    cases supplies
    have same : more = members := by
      cases more
      cases members
      cases entries.trans (List.append_nil _)
      rfl
    rw [still, same]

/-- What has come under a key holds nothing and was not there before. -/
theorem Supplied.added {part : Value} (object : before.contents? value = some (.object members))
    (absent : members.get? key = none) (entry : after.inner? value (.key key) = some part) :
    after.Bare part ∧ before.contents? part = none := by
  obtain ⟨more, added, still, entries, supplies⟩ := supplied.object object
  have member := Assoc.mem_entries.mpr ((inner?_object still key).symm.trans entry)
  rw [entries] at member
  rcases List.mem_append.mp member with old | late
  · cases (Assoc.mem_entries.mp old).symm.trans absent
  · obtain ⟨want, _, _, stands⟩ := supplies.wanted late
    exact ⟨stands.bare, stands.new⟩

theorem Supplied.new {value : Value} {id : CompositeId} (new : before.New after value key id) :
    before.contents? (.composite id) = none ∧ after.contents? (.composite id) = some (.array []) := by
  obtain ⟨contents, present⟩ := Option.ne_none_iff_exists'.mp new.known
  have absent := new.absent
  have entry := new.entry
  rw [inner?_of_contents present] at absent
  cases contents with
  | array items =>
    rw [inner?_of_contents (supplied.array present)] at entry
    cases entry
  | object members =>
    obtain ⟨bare, fresh⟩ := supplied.added present absent entry
    exact ⟨fresh, bare.resolve_left fun plain => plain id rfl⟩

theorem Supplied.hasMember {value : Value}
    (object : before.contents? value = some (.object members)) (name : String) :
    after.hasMember value name = true ↔
      before.hasMember value name = true ∨ name ∈ (wants value).map Prod.fst := by
  obtain ⟨more, added, still, entries, supplies⟩ := supplied.object object
  rw [hasMember_iff still, hasMember_iff object, entries, List.map_append, List.mem_append,
    supplies.keys]

/-- One supply after another. -/
theorem Supplied.trans {others : Value → List (String × FieldDefault)}
    (onward : after.Supplied last others) :
    before.Supplied last fun value => wants value ++ others value where
  array present := onward.array (supplied.array present)
  object {value members} present := by
    obtain ⟨more, added, still, entries, supplies⟩ := supplied.object present
    obtain ⟨most, further, lastly, entriesLast, suppliesLast⟩ := onward.object still
    refine ⟨most, added ++ further, lastly, ?_, List.rel_append ?_ ?_⟩
    · rw [entriesLast, entries, List.append_assoc]
    · exact supplies.imp (fun _ => id) fun _ => onward.array
    · exact suppliesLast.imp (fun _ => supplied.contents?_of_none) fun _ => id
  tame member := (List.mem_append.mp member).elim supplied.tame onward.tame
  apart {value other key name id} new newToo := by
    have between {value : Value} {key : String} (new : before.New last value key id) :
        before.New after value key id ∨ after.New last value key id := by
      cases entry : after.inner? value (.key key) with
      | none =>
        exact .inr ⟨supplied.filled.contents?_ne_none new.known, entry, new.entry⟩
      | some part =>
        have same := onward.filled.inner?_of_before entry
        rw [new.entry] at same
        cases same
        exact .inl ⟨new.known, new.absent, entry⟩
    rcases between new with early | late
    · rcases between newToo with earlyToo | lateToo
      · exact supplied.apart early earlyToo
      · have there := (supplied.new early).2
        rw [(onward.new lateToo).1] at there
        cases there
    · rcases between newToo with earlyToo | lateToo
      · have there := (supplied.new earlyToo).2
        rw [(onward.new late).1] at there
        cases there
      · exact onward.apart late lateToo

variable (object : before.contents? value = some (.object members))

include object

theorem Supplied.type? : after.type? value = before.type? value :=
  supplied.filled.type? fun _ _ => object ▸ Option.some_ne_none _

/-- Who gets nothing lacks what it lacked. -/
theorem Supplied.lacking_of_nil (nothing : wants value = []) :
    after.lacking value = before.lacking value := by
  rw [lacking, lacking, supplied.type? object]
  refine congrArg (Option.elim _ []) (funext fun type => ?_)
  refine missing_congr (supplied.type? object) fun name _ => ?_
  rw [Bool.eq_iff_iff, supplied.hasMember object, nothing]
  exact or_iff_left List.not_mem_nil

/-- Who gets all that it lacks lacks nothing more. -/
theorem Supplied.lacking_eq_nil (all : wants value = before.lacking value) :
    after.lacking value = [] := by
  rw [lacking, supplied.type? object]
  rw [lacking] at all
  cases typed : before.type? value with
  | none => rfl
  | some type =>
    rw [typed] at all
    refine List.eq_nil_iff_forall_not_mem.mpr fun want member => ?_
    obtain ⟨among, lacks, declared⟩ := mem_missing member
    refine Bool.eq_false_iff.mp lacks ((supplied.hasMember object _).mpr ?_)
    by_cases has : before.hasMember value want.1 = true
    · exact .inl has
    · refine .inr (List.mem_map.mpr ⟨want, ?_, rfl⟩)
      rw [fieldDefault?, supplied.type? object, ← fieldDefault?] at declared
      rw [all]
      refine List.mem_filterMap.mpr ⟨want.1, among, ?_⟩
      rw [if_neg has, declared]
      rfl

end Supplied

/-! ### Completion -/

/-- From one store to another, the typed objects that have been reached have come to hold the
defaults that they lacked, and nothing else has changed. -/
def Completes (before after : Store) (reached : Value → Prop) : Prop :=
  ∃ wants, before.Supplied after wants ∧
    ∀ {value members}, before.contents? value = some (.object members) →
      (reached value → wants value = before.lacking value) ∧ (¬reached value → wants value = [])

theorem completes_of_stays (stays : before.Stays after) : before.Completes after fun _ => False :=
  ⟨_, supplied_of_stays stays, fun _ => ⟨False.elim, fun _ => rfl⟩⟩

theorem completes_of_satisfied (nothing : store.lacking value = []) :
    store.Completes store (· = value) := by
  refine ⟨_, supplied_of_stays (.refl _), fun _ => ⟨?_, fun _ => rfl⟩⟩
  rintro rfl
  exact nothing.symm

section Completes

variable {reached : Value → Prop} (completes : before.Completes after reached)

include completes

/-- It does not matter whether what lacks nothing has been reached. -/
theorem Completes.congr {others : Value → Prop}
    (agree : ∀ value, before.lacking value ≠ [] → (reached value ↔ others value)) :
    before.Completes after others := by
  obtain ⟨wants, supplied, told⟩ := completes
  refine ⟨wants, supplied, fun {value _} object => ?_⟩
  obtain ⟨all, nothing⟩ := told object
  by_cases lacks : before.lacking value = []
  · have none : wants value = [] := by
      by_cases came : reached value
      · exact (all came).trans lacks
      · exact nothing came
    exact ⟨fun _ => none.trans lacks.symm, fun _ => none⟩
  · rw [← agree value lacks]
    exact ⟨all, nothing⟩

/-- An object that has been completed is not changed when it is reached again. -/
theorem Completes.trans {others : Value → Prop} (onward : after.Completes last others) :
    before.Completes last fun value => reached value ∨ others value := by
  obtain ⟨wants, supplied, told⟩ := completes
  obtain ⟨wantsToo, suppliedToo, toldToo⟩ := onward
  refine ⟨_, supplied.trans suppliedToo, fun {value _} object => ?_⟩
  obtain ⟨more, _, still, _⟩ := supplied.object object
  obtain ⟨all, nothing⟩ := told object
  obtain ⟨allToo, nothingToo⟩ := toldToo still
  by_cases came : reached value
  · have rest : wantsToo value = [] := by
      by_cases cameToo : others value
      · rw [allToo cameToo, supplied.lacking_eq_nil object (all came)]
      · exact nothingToo cameToo
    exact ⟨fun _ => by rw [rest, List.append_nil, all came], fun neither => absurd (.inl came) neither⟩
  · rw [nothing came, List.nil_append]
    refine ⟨fun either => ?_, fun neither => nothingToo fun late => neither (.inr late)⟩
    rw [allToo (either.resolve_left came), supplied.lacking_of_nil object (nothing came)]

theorem Completes.stays_after (stays : after.Stays last) : before.Completes last reached :=
  (completes.trans (completes_of_stays stays)).congr fun _ _ => or_iff_left id

theorem Completes.filled : before.Filled after := by
  obtain ⟨_, supplied, _⟩ := completes
  exact supplied.filled

/-- Where nothing is lacking nothing changes. -/
theorem Completes.stays (nothing : ∀ value, reached value → before.lacking value = []) :
    before.Stays after := by
  obtain ⟨wants, supplied, told⟩ := completes
  intro value contents present
  cases contents with
  | array items => exact supplied.array present
  | object members =>
    refine supplied.stays ?_ present
    by_cases came : reached value
    · exact ((told present).1 came).trans (nothing value came)
    · exact (told present).2 came

/-- What has been reached lacks nothing. -/
theorem Completes.lacking {value : Value} (object : before.contents? value = some (.object members))
    (came : reached value) : after.lacking value = [] := by
  obtain ⟨wants, supplied, told⟩ := completes
  exact supplied.lacking_eq_nil object ((told object).1 came)

/-- Composites that stood in one place each still do. -/
theorem Completes.unshared (unshared : before.Unshared root) (whole : before.Whole root) :
    after.Unshared root := by
  obtain ⟨wants, supplied, _⟩ := completes
  have filled := supplied.filled
  intro path other id first second
  have arrived {path : List SlotName} (there : after.part? root path = some (.composite id)) :
      before.part? root path = some (.composite id) ∨
        ∃ front key holder, path = front ++ [.key key] ∧ before.part? root front = some holder ∧
          before.New after holder key id := by
    rcases filled.part?_of_after whole there with
      old | ⟨_, front, key, holder, members, rfl, reached, object⟩
    · exact .inl old
    · obtain ⟨holderNow, reachedNow, entry⟩ := part?_concat.mp there
      cases (filled.part?_of_before reached).symm.trans reachedNow
      cases absent : before.inner? holder (.key key) with
      | some part =>
        cases (filled.inner?_of_before absent).symm.trans entry
        exact .inl (part?_concat.mpr ⟨holder, reached, absent⟩)
      | none =>
        exact .inr ⟨front, key, holder, rfl, reached, object ▸ Option.some_ne_none _, absent, entry⟩
  have fresh {path : List SlotName} {holder : Value} {key : String}
      (old : before.part? root path = some (.composite id))
      (new : before.New after holder key id) : False :=
    whole path id old (supplied.new new).1
  rcases arrived first with old | ⟨front, key, holder, rfl, reached, new⟩
  · rcases arrived second with oldToo | ⟨_, _, _, _, _, newToo⟩
    · exact unshared old oldToo
    · exact (fresh old newToo).elim
  · rcases arrived second with oldToo | ⟨frontToo, keyToo, holderToo, rfl, reachedToo, newToo⟩
    · exact (fresh oldToo new).elim
    · obtain ⟨rfl, rfl⟩ := supplied.apart new newToo
      obtain ⟨contents, present⟩ := Option.ne_none_iff_exists'.mp new.known
      obtain ⟨holderId, rfl⟩ := exists_id_of_contents? present
      rw [unshared reached reachedToo]

theorem Completes.whole (whole : before.Whole root) : after.Whole root := by
  have filled := completes.filled
  intro path id there
  rcases filled.part?_of_after whole there with old | ⟨bare, _⟩
  · exact filled.contents?_ne_none (whole path id old)
  · rcases bare with plain | empty
    · exact absurd rfl (plain id)
    · rw [empty]
      exact Option.some_ne_none _

end Completes

end Store

namespace World

/-! ### Filling in a default -/

/-- To fill in a default is to write what an object lacks. -/
theorem fillField_cases (world : World) (value : Value) (key : String) :
    (world.fillField value key = world ∧ world.store.missing value [key] = []) ∨
    ∃ members default store part, world.store.contents? value = some (.object members) ∧
      members.get? key = none ∧ world.store.fieldDefault? value key = some default ∧
      world.store.missing value [key] = [(key, default)] ∧
      default.Made world.store store part ∧ (default.toValue.run world.store).1 = part ∧
      world.fillField value key = { world with store := store.setMember value key part } := by
  rw [fillField, Store.missing, List.filterMap_cons, List.filterMap_nil]
  split
  · exact .inl ⟨rfl, rfl⟩
  · rename_i lacks
    cases found : world.store.fieldDefault? value key with
    | none => exact .inl ⟨rfl, rfl⟩
    | some default =>
      obtain ⟨type, typed, _⟩ := Option.bind_eq_some_iff.mp found
      obtain ⟨id, members, rfl, object⟩ := Store.exists_members typed
      refine .inr ⟨members, default, _, _, object, ?_, rfl, rfl, default.made_toValue _, rfl, rfl⟩
      rw [Store.hasMember, Store.members?, object] at lacks
      simpa [Assoc.contains] using lacks

theorem supplied_fillField (world : World) (value : Value) (key : String) :
    world.store.Supplied (world.fillField value key).store fun other =>
      if other = value then world.store.missing value [key] else [] := by
  rcases world.fillField_cases value key with
    ⟨same, nothing⟩ | ⟨members, default, store, part, object, absent, found, wants, made, _, result⟩
  · rw [same]
    simp only [nothing, ite_self]
    exact Store.supplied_of_stays (.refl _)
  · obtain ⟨untyped, second⟩ := Store.fieldDefault?_eq_some found
    have still := made.stays _ _ object
    have written : (store.setMember value key part).contents? value =
        some (.object (members.insert key part)) := Store.contents?_modifyMembers_self still _
    have others {other : Value} (different : other ≠ value) :
        (store.setMember value key part).contents? other = store.contents? other :=
      Store.contents?_modifyMembers_other store different _
    have array {other : Value} {items : List Value}
        (present : store.contents? other = some (.array items)) :
        (store.setMember value key part).contents? other = some (.array items) := by
      rw [others, present]
      rintro rfl
      rw [still] at present
      cases present
    rw [result, wants]
    refine ⟨fun present => array (made.stays _ _ present), fun {other old} present => ?_,
      fun {other want} wanted => ?_, fun {first second firstKey secondKey id} new newToo => ?_⟩
    · by_cases same : other = value
      · subst same
        cases object.symm.trans present
        refine ⟨_, [(key, part)], written, Entries.put_of_absent absent part, ?_⟩
        rw [if_pos rfl]
        exact .cons ⟨rfl, made.stands.imp id array⟩ .nil
      · refine ⟨old, [], (others same).trans (made.stays _ _ present), (List.append_nil _).symm, ?_⟩
        rw [if_neg same]
        exact .nil
    · split at wanted
      · cases List.mem_singleton.mp wanted
        exact ⟨untyped, second⟩
      · cases wanted
    · have here {other : Value} {name : String}
          (new : world.store.New (store.setMember value key part) other name id) :
          other = value ∧ name = key := by
        obtain ⟨known, missing, entry⟩ := new
        obtain ⟨contents, present⟩ := Option.ne_none_iff_exists'.mp known
        by_cases same : other = value
        · subst same
          refine ⟨rfl, ?_⟩
          by_contra different
          rw [Store.inner?_object written, Assoc.get?_insert, if_neg different,
            ← Store.inner?_object object, missing] at entry
          cases entry
        · rw [Store.inner?_congr ((others same).trans
            ((made.stays _ _ present).trans present.symm)), missing] at entry
          cases entry
      obtain ⟨rfl, rfl⟩ := here new
      obtain ⟨rfl, rfl⟩ := here newToo
      exact ⟨rfl, rfl⟩

theorem filled_fillField (world : World) (value : Value) (key : String) :
    world.store.Filled (world.fillField value key).store :=
  (world.supplied_fillField value key).filled

/-- To fill in a default writes to the store. -/
theorem fillField_eq (world : World) (value : Value) (name : String) :
    ∃ store, world.fillField value name = { world with store } := by
  unfold fillField
  split
  · exact ⟨_, rfl⟩
  · split <;> exact ⟨_, rfl⟩

theorem keeps_child (world : World) (c : CursorId) (name : SlotName) :
    world.Keeps (world.child c name).2 := by
  rcases world.child_cases c name with ⟨_, _, _, result⟩ | ⟨_, result⟩
  · rw [result]
    exact .refl world
  · rw [result]
    exact keeps_addChild _ _ _ _

section FieldCursors

variable (inside : c < world.cursors.size)
  (object : world.store.contents? (world.value c) = some (.object members)) (distinct : names.Nodup)

include inside object distinct

/-- To collect the cursors of some fields is to fill in those that are missing. -/
theorem supplied_fieldCursors :
    world.store.Supplied (world.fieldCursors c names).2.store fun other =>
      if other = world.value c then world.store.missing (world.value c) names else [] := by
  induction names generalizing world members with
  | nil =>
    simp only [Store.missing, List.filterMap_nil, ite_self]
    exact Store.supplied_of_stays (.refl _)
  | cons name rest ih =>
    obtain ⟨apart, distinctRest⟩ := List.nodup_cons.mp distinct
    have first := world.supplied_fillField (world.value c) name
    have filled := first.filled
    obtain ⟨store, result⟩ := world.fillField_eq (world.value c) name
    have keeps := (world.fillField (world.value c) name).keeps_child c (.key name)
    rw [result] at first filled keeps
    obtain ⟨more, _, still, _⟩ := first.object object
    have value : ({ world with store }.child c (.key name)).2.value c = world.value c :=
      keeps.value inside
    have onward := @ih ({ world with store }.child c (.key name)).2 more
      (Nat.lt_of_lt_of_le inside keeps.size) (by rw [value, store_child]; exact still) distinctRest
    rw [value, store_child] at onward
    have same : store.missing (world.value c) rest = world.store.missing (world.value c) rest := by
      refine Store.missing_congr (filled.type? fun id _ => object ▸ Option.some_ne_none _)
        fun other among => ?_
      rw [Bool.eq_iff_iff, first.hasMember object, if_pos rfl]
      refine or_iff_left fun wanted => ?_
      obtain ⟨want, member, rfl⟩ := List.mem_map.mp wanted
      rw [List.mem_singleton.mp (Store.mem_missing member).1] at among
      exact apart among
    rw [same] at onward
    have both := first.trans onward
    have wants : (fun other => (if other = world.value c then
          world.store.missing (world.value c) [name] else []) ++
        if other = world.value c then world.store.missing (world.value c) rest else []) =
        fun other => if other = world.value c then
          world.store.missing (world.value c) (name :: rest) else [] := by
      funext other
      split
      · exact (world.store.missing_append _ [name] rest).symm
      · rfl
    rw [fieldCursors, result]
    exact wants ▸ both

theorem completes_fieldCursors
    (all : world.store.missing (world.value c) names = world.store.lacking (world.value c)) :
    world.store.Completes (world.fieldCursors c names).2.store (· = world.value c) := by
  refine ⟨_, supplied_fieldCursors inside object distinct, fun _ => ⟨?_, ?_⟩⟩
  · rintro rfl
    rw [if_pos rfl, all]
  · intro other
    exact if_neg other

end FieldCursors

end World

/-! ### Collecting the fields of an object -/

namespace Store

/-- Between two stores, at most one object has been supplied. -/
def Widened (before after : Store) (holder : Value) : Prop :=
  ∃ wants, before.Supplied after wants ∧ ∀ {other}, other ≠ holder → wants other = []

theorem Widened.refl (store : Store) (holder : Value) : store.Widened store holder :=
  ⟨_, supplied_of_stays (.refl _), fun _ => rfl⟩

section Widened

variable {holder part : Value} {name : SlotName} (widened : before.Widened after holder)

include widened

theorem Widened.supplied {wants : Value → List (String × FieldDefault)}
    (supplied : after.Supplied last wants) (aside : ∀ {other}, other ≠ holder → wants other = []) :
    before.Widened last holder := by
  obtain ⟨_, earlier, asideToo⟩ := widened
  exact ⟨_, earlier.trans supplied, fun other => by rw [aside other, asideToo other]; rfl⟩

theorem Widened.others {other : Value} {contents : Composite} (different : other ≠ holder)
    (present : before.contents? other = some contents) : after.contents? other = some contents := by
  obtain ⟨_, supplied, aside⟩ := widened
  exact supplied.stays (aside different) present

/-- What stands in the slots of the object is left alone. -/
theorem Widened.spares (unshared : before.Unshared holder) (whole : before.Whole holder)
    (entry : before.inner? holder name = some part) : before.Spares after part := by
  intro path deeper there
  have reached : before.part? holder (name :: path) = some deeper :=
    (part?_cons entry path).trans there
  cases present : before.contents? deeper with
  | none => exact whole.plain reached present after
  | some contents =>
    refine widened.others ?_ present
    rintro rfl
    obtain ⟨id, rfl⟩ := exists_id_of_contents? present
    exact List.cons_ne_nil name path (unshared reached rfl)

theorem Widened.confined (object : before.contents? holder = some (.object members)) :
    before.Confined after holder where
  array {other items} present := by
    refine widened.others ?_ present
    rintro rfl
    rw [object] at present
    cases present
  object present outside :=
    widened.others (fun same => outside [] (congrArg some same.symm)) present

variable (object : before.contents? holder = some (.object members))

include object

theorem Widened.still : ∃ more, after.contents? holder = some (.object more) := by
  obtain ⟨_, supplied, _⟩ := widened
  obtain ⟨more, _, still, _⟩ := supplied.object object
  exact ⟨more, still⟩

/-- What a slot of a widened object holds. -/
theorem Widened.slot (key : String) :
    (∀ part, members.get? key = some part → after.slot holder (.key key) = part) ∧
      (members.get? key = none → after.Bare (after.slot holder (.key key)) ∧
        before.contents? (after.slot holder (.key key)) = none) := by
  obtain ⟨more, still⟩ := widened.still object
  obtain ⟨_, supplied, _⟩ := widened
  rw [slot_object still, SlotName.text]
  constructor
  · intro part member
    have stood := supplied.filled.inner?_of_before ((inner?_object object key).trans member)
    rw [(inner?_object still key).symm.trans stood, Option.getD_some]
  · intro absent
    cases found : more.get? key with
    | none => exact ⟨bare_null after, rfl⟩
    | some part => exact supplied.added object absent ((inner?_object still key).trans found)

end Widened

end Store

namespace World

/-- The cursors of the fields of an object, with defaults filled in. -/
theorem Sound.collected_fields {holder : Value}
    (object : origin.contents? holder = some (.object members)) (sound : Sound world) (inside : c < world.cursors.size)
    (here : world.value c = holder) (unshared : origin.Unshared holder)
    (whole : origin.Whole holder) (widened : origin.Widened world.store holder)
    (names : List String) :
    Collected origin holder world c (names.map .key) (world.fieldCursors c names) ∧
      origin.Widened (world.fieldCursors c names).2.store holder ∧
      ∀ {other items}, world.store.contents? other = some (.array items) →
        (world.fieldCursors c names).2.store.contents? other = some (.array items) := by
  induction names generalizing world with
  | nil => exact ⟨⟨sound, .refl world, rfl, .nil⟩, widened, id⟩
  | cons name rest ih =>
    have supplied := world.supplied_fillField holder name
    obtain ⟨store, filled⟩ := world.fillField_eq holder name
    rw [filled] at supplied
    have widenedToo : origin.Widened store holder := widened.supplied supplied fun other => if_neg other
    obtain ⟨more, still⟩ := widenedToo.still object
    have soundFilled : Sound { world with store } := sound.withStore store
    have found := soundFilled.found_child inside
      (show store.normalName (world.value c) (.key name) = _ by
        rw [here, Store.normalName_object still, SlotName.text])
    have keeps : world.Keeps ({ world with store }.child c (.key name)).2 :=
      ((Keeps.refl world).around _ store _ _).trans found.keeps
    obtain ⟨present, missing⟩ := widenedToo.slot object name
    rw [← here] at present missing
    have first : Offers origin holder ({ world with store }.child c (.key name)).2 c (.key name)
        ({ world with store }.child c (.key name)).1 := by
      cases member : members.get? name with
      | none =>
        obtain ⟨bare, new⟩ := missing member
        exact found.offers_nothing ((Store.inner?_object object name).trans member) bare new
      | some part =>
        have entry := (Store.inner?_object object name).trans member
        exact found.offers entry (present part member) (widenedToo.spares unshared whole entry)
    have storeStill := found.store
    obtain ⟨others, widenedLast, arrays⟩ := ih found.sound
      (Nat.lt_of_lt_of_le inside keeps.size) ((keeps.value inside).trans here)
      (by rw [storeStill]; exact widenedToo)
    rw [fieldCursors, here, filled]
    refine ⟨others.cons keeps found.held first arrays fun entry _ =>
      widenedLast.spares unshared whole entry, widenedLast, fun present => arrays ?_⟩
    rw [storeStill]
    exact supplied.array present

end World

end CodeTree
