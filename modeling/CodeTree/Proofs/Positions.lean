/-
The positions of a tree in document order. A walk comes to a tree before it comes to what is in its
slots, and it takes the slots in order: the elements of an array by their indices, the keys of a
plain record as they stand, the declared fields of a typed object as they are declared, and its
comments last. Whether the walk goes on below a node is for the handler of the node to say.

Nothing here looks at cursors or at a store. The listing says where handlers are to be called, in
which order and with what; that a visit calls them so is proved elsewhere.
-/

import CodeTree.Proofs.Counting
import Mathlib.Data.List.TakeWhile

namespace CodeTree

variable {tree : Tree} {position : Position} {path : List SlotName} {first : List Position}

/-! ### Declared fields -/

namespace NodeType

/-- Declaring a field adds its name, unless the name is there already. -/
theorem names_declareField (fields : List Field) (own : Field) :
    (declareField fields own).map Field.name =
      if own.name ∈ fields.map Field.name then fields.map Field.name
      else fields.map Field.name ++ [own.name] := by
  induction fields with
  | nil => rfl
  | cons first rest ih =>
    rw [declareField]
    by_cases same : first.name = own.name
    · rw [if_pos same, List.map_cons, List.map_cons, if_pos (same ▸ List.mem_cons_self), same]
    · rw [if_neg same, List.map_cons, List.map_cons, ih]
      by_cases member : own.name ∈ rest.map Field.name
      · rw [if_pos member, if_pos (List.mem_cons_of_mem _ member)]
      · rw [if_neg member, if_neg, List.cons_append]
        exact fun inside => (List.mem_cons.mp inside).elim (fun equal => same equal.symm) member

theorem nodup_declareField {fields : List Field} (distinct : (fields.map Field.name).Nodup)
    (own : Field) : ((declareField fields own).map Field.name).Nodup := by
  rw [names_declareField]
  split
  · exact distinct
  · rename_i absent
    refine List.nodup_append.mpr ⟨distinct, List.nodup_singleton _, ?_⟩
    rintro name inside other single rfl
    exact absent (List.mem_singleton.mp single ▸ inside)

theorem nodup_collectFields (height : Nat) {collected : List Field}
    (distinct : (collected.map Field.name).Nodup) (type : NodeType) :
    ((collectFields height collected type).map Field.name).Nodup := by
  induction height generalizing collected type with
  | zero => exact distinct
  | succ height ih =>
    rw [collectFields]
    have bases := List.foldlRecOn type.bases (collectFields height)
      (motive := fun fields => (fields.map Field.name).Nodup) distinct
      fun _ declared base _ => ih declared base
    exact List.foldlRecOn type.ownFields declareField
      (motive := fun fields => (fields.map Field.name).Nodup) bases
      fun _ declared own _ => nodup_declareField declared own

/-- No field is declared twice. -/
theorem nodup_fieldNames (type : NodeType) : type.fieldNames.Nodup :=
  @nodup_collectFields all.length [] List.nodup_nil type

theorem nearest?_singleton (type own : NodeType) :
    nearest? [type] own = if own.isSubtypeOf type then some type else none := by
  rw [nearest?, isSubtypeOf]
  cases found : own.supertypes.find? (fun supertype => [type].contains supertype) with
  | none =>
    have missing : own.supertypes.contains type = false := by
      refine Bool.eq_false_iff.mpr fun derives => ?_
      have apart := List.find?_eq_none.mp found type (List.contains_iff_mem.mp derives)
      simp at apart
    rw [missing, if_neg Bool.false_ne_true]
  | some supertype =>
    have same : supertype = type := by simpa using List.find?_some found
    have derives := List.contains_iff_mem.mpr (List.mem_of_find?_eq_some found)
    rw [same] at derives ⊢
    rw [if_pos derives]

end NodeType

/-! ### Policies -/

/-- A place that a walk comes to: the names on the way, and the tree that stands there. -/
structure Position where
  path : List SlotName
  tree : Tree

/-- What a visitor does at the nodes of a tree that it leaves as it is: its handlers by the types
that they are declared for, and whether a handler has the children of its node walked. -/
structure Policy (H : Type) where
  handlers : Assoc NodeType H
  descends : H → Tree → Bool

/-- The keys of a tree at whose top there is an object, in order. -/
def Tree.keys : Tree → List String
  | object _ members => members.map Prod.fst
  | _ => []

namespace Policy

variable {H : Type} (policy : Policy H)

/-- The declared type whose handler is for a type: the nearest supertype. -/
def declared? (own : NodeType) : Option NodeType := NodeType.nearest? policy.handlers.keys own

/-- The handler for a tree, with the type it is declared for. -/
def handler? (tree : Tree) : Option (NodeType × H) := do
  let own ← tree.type?
  let declared ← policy.declared? own
  let handler ← policy.handlers.get? declared
  return (declared, handler)

/-- Whether a walk goes on below a tree. Only a handler can keep it from doing so. -/
def enters (tree : Tree) : Bool :=
  (policy.handler? tree).all fun found => policy.descends found.2 tree

/-- Comments are walked if there is a handler for some. -/
def walksComments : Bool :=
  (policy.declared? .block).isSome || (policy.declared? .line).isSome

/-- The keys under which a walk goes on from an object, in order. -/
def walkedKeys (tree : Tree) : List String :=
  match tree.type? with
  | some own =>
    if policy.walksComments && !(tree.member "comments").isNull &&
        !own.fieldNames.contains "comments" then
      own.fieldNames ++ ["comments"]
    else own.fieldNames
  | none => if tree.isUnknown then [] else tree.keys

mutual

/-- The positions that a walk comes to from a tree at the end of a path, in order. -/
def positions (path : List SlotName) : Tree → List Position
  | .leaf value => [⟨path, .leaf value⟩]
  | .array id items => ⟨path, .array id items⟩ :: positionsAmong path 0 items
  | .object id members =>
    ⟨path, .object id members⟩ ::
      if policy.enters (.object id members) then
        (policy.walkedKeys (.object id members)).flatMap fun key =>
          (Entries.lookup key (positionsUnder path members)).getD []
      else []
termination_by structural tree => tree

/-- The positions among the elements of an array, from an index on. -/
def positionsAmong (path : List SlotName) (start : Nat) : List Tree → List Position
  | [] => []
  | item :: rest => positions (path ++ [.index start]) item ++ positionsAmong path (start + 1) rest
termination_by structural items => items

/-- The positions under each key of an object. -/
def positionsUnder (path : List SlotName) : List (String × Tree) → List (String × List Position)
  | [] => []
  | (key, part) :: rest => (key, positions (path ++ [.key key]) part) :: positionsUnder path rest
termination_by structural members => members

end

/-- The slots that a walk goes through below a tree, in order. -/
def slots : Tree → List SlotName
  | .leaf _ => []
  | .array _ items => (List.range items.length).map .index
  | .object id members => (policy.walkedKeys (.object id members)).map .key

/-- The positions in a slot of a tree. -/
def within (path : List SlotName) (tree : Tree) (name : SlotName) : List Position :=
  ((tree.inner? name).map (policy.positions (path ++ [name]))).getD []

/-- The positions below a tree. -/
def below (path : List SlotName) (tree : Tree) : List Position :=
  (policy.slots tree).flatMap (policy.within path tree)

theorem positionsAmong_eq (path : List SlotName) (start : Nat) (items : List Tree) :
    policy.positionsAmong path start items =
      (List.range items.length).flatMap fun offset =>
        (items[offset]?.map (policy.positions (path ++ [.index (start + offset)]))).getD [] := by
  induction items generalizing start with
  | nil => rw [positionsAmong, List.length_nil, List.range_zero, List.flatMap_nil]
  | cons item rest ih =>
    rw [positionsAmong, ih, List.length_cons, List.range_succ_eq_map,
      List.flatMap_cons, List.flatMap_map]
    simp only [List.getElem?_cons_zero, List.getElem?_cons_succ, Option.map_some, Option.getD_some,
      Nat.add_zero, Nat.add_assoc, Nat.add_comm 1]

theorem lookup_positionsUnder (path : List SlotName) (key : String)
    (members : List (String × Tree)) :
    Entries.lookup key (policy.positionsUnder path members) =
      (Entries.lookup key members).map (policy.positions (path ++ [.key key])) := by
  induction members with
  | nil => rw [positionsUnder, Entries.lookup, Entries.lookup, Option.map_none]
  | cons member rest ih =>
    obtain ⟨other, part⟩ := member
    rw [positionsUnder, Entries.lookup, Entries.lookup, ih]
    split
    · rename_i same
      rw [same, Option.map_some]
    · rfl

/-- What a visitor does that has one handler, and goes on everywhere. -/
def single (type : NodeType) : Policy Unit := ⟨.ofList [(type, ())], fun _ _ => true⟩

theorem declared?_single (type own : NodeType) :
    (single type).declared? own = if own.isSubtypeOf type then some type else none :=
  NodeType.nearest?_singleton type own

theorem handler?_single (type : NodeType) (tree : Tree) :
    (single type).handler? tree = if tree.isOf type then some (type, ()) else none := by
  rw [handler?, Tree.isOf]
  cases tree.type? with
  | none => rfl
  | some own =>
    rw [Option.bind_eq_bind, Option.bind_some, declared?_single, Option.any_some]
    split
    · simp [single, Assoc.ofList]
    · rfl

theorem handler?_eq_none (untyped : tree.type? = none) : policy.handler? tree = none := by
  rw [handler?, untyped]
  rfl

theorem enters_of_untyped (untyped : tree.type? = none) : policy.enters tree = true := by
  rw [enters, policy.handler?_eq_none untyped]
  rfl

/-- A walk comes to a tree first, and then to what is below it. -/
theorem positions_eq (path : List SlotName) (tree : Tree) :
    policy.positions path tree =
      ⟨path, tree⟩ :: if policy.enters tree then policy.below path tree else [] := by
  cases tree with
  | leaf value =>
    rw [positions, policy.enters_of_untyped rfl, if_pos rfl]
    rfl
  | array id items =>
    rw [positions, policy.enters_of_untyped rfl, if_pos rfl, positionsAmong_eq, below, slots,
      List.flatMap_map]
    simp only [Nat.zero_add]
    rfl
  | object id members =>
    rw [positions, below, slots, List.flatMap_map]
    simp only [lookup_positionsUnder]
    rfl

/-- An object whose type names none is not walked through. -/
theorem below_of_unknown (unknown : tree.isUnknown = true) (path : List SlotName) :
    policy.below path tree = [] := by
  cases tree with
  | leaf value => rfl
  | array id items => cases unknown
  | object id members =>
    have untyped : (Tree.object id members).type? = none := by
      rw [Tree.isUnknown, Bool.and_eq_true] at unknown
      exact Option.isNone_iff_eq_none.mp unknown.2
    rw [below, slots, walkedKeys, untyped]
    dsimp only
    rw [if_pos unknown]
    rfl

end Policy

/-! ### Each position once -/

mutual

/-- What holds of a tree if it holds of everything in its slots holds of all trees. -/
theorem Tree.of_inner {motive : Tree → Prop}
    (step : ∀ tree : Tree, (∀ {name part}, tree.inner? name = some part → motive part) →
      motive tree) : ∀ tree, motive tree
  | .leaf value => step (.leaf value) fun {name _} entry => by cases name <;> cases entry
  | .array id items => step (.array id items) fun {name _} entry => by
    cases name with
    | key characters => cases entry
    | index position => exact ofInnerItems step items _ (List.mem_of_getElem? entry)
  | .object id members => step (.object id members) fun {name _} entry => by
    cases name with
    | index position => cases entry
    | key characters => exact ofInnerMembers step members _ _ entry

theorem ofInnerItems {motive : Tree → Prop}
    (step : ∀ tree : Tree, (∀ {name part}, tree.inner? name = some part → motive part) →
      motive tree) : ∀ items : List Tree, ∀ item ∈ items, motive item
  | [], _, member => by cases member
  | first :: rest, item, member => by
    rcases List.mem_cons.mp member with same | later
    · rw [same]
      exact Tree.of_inner step first
    · exact ofInnerItems step rest item later

theorem ofInnerMembers {motive : Tree → Prop}
    (step : ∀ tree : Tree, (∀ {name part}, tree.inner? name = some part → motive part) →
      motive tree) : ∀ members : List (String × Tree), ∀ key part,
      Entries.lookup key members = some part → motive part
  | [], _, _, found => by cases found
  | (other, first) :: rest, key, part, found => by
    rw [Entries.lookup] at found
    split at found
    · cases found
      exact Tree.of_inner step first
    · exact ofInnerMembers step rest key part found

end

namespace Policy

variable {H : Type} (policy : Policy H)

theorem mem_below (member : position ∈ policy.below path tree) :
    ∃ name part, tree.inner? name = some part ∧
      position ∈ policy.positions (path ++ [name]) part := by
  obtain ⟨name, _, inside⟩ := List.mem_flatMap.mp member
  rw [within] at inside
  cases entry : tree.inner? name with
  | none =>
    rw [entry] at inside
    cases inside
  | some part =>
    rw [entry] at inside
    exact ⟨name, part, entry, inside⟩

/-- A position is where its path leads to, and it shows what stands there. -/
theorem at?_of_mem_positions (member : position ∈ policy.positions path tree) :
    ∃ rest, position.path = path ++ rest ∧ tree.at? rest = some position.tree := by
  revert path
  refine tree.of_inner (motive := fun tree => ∀ {path}, position ∈ policy.positions path tree →
    ∃ rest, position.path = path ++ rest ∧ tree.at? rest = some position.tree) ?_
  intro tree ih path member
  rw [positions_eq] at member
  rcases List.mem_cons.mp member with rfl | later
  · exact ⟨[], (List.append_nil path).symm, rfl⟩
  · split at later
    · obtain ⟨name, part, entry, inside⟩ := policy.mem_below later
      obtain ⟨rest, leads, shows⟩ := ih entry inside
      refine ⟨name :: rest, by rw [leads, List.append_assoc]; rfl, ?_⟩
      rw [Tree.at?, entry, Option.bind_some, shows]
    · cases later

/-- No slot is walked twice. -/
theorem nodup_slots (keyed : tree.Keyed) : (policy.slots tree).Nodup := by
  have keys {names : List String} (distinct : names.Nodup) : (names.map SlotName.key).Nodup :=
    distinct.map fun _ _ equal => SlotName.key.inj equal
  cases tree with
  | leaf value => exact List.nodup_nil
  | array id items => exact List.nodup_range.map fun _ _ equal => SlotName.index.inj equal
  | object id members =>
    refine keys ?_
    rw [walkedKeys]
    split
    · rename_i own _
      split
      · rename_i extra
        refine List.nodup_append.mpr ⟨own.nodup_fieldNames, List.nodup_singleton _, ?_⟩
        rintro name declared other single rfl
        rw [List.mem_singleton.mp single] at declared
        rw [List.contains_iff_mem.mpr declared, Bool.not_true, Bool.and_false] at extra
        cases extra
      · exact own.nodup_fieldNames
    · split
      · exact List.nodup_nil
      · exact keyed [] id members rfl

/-- A walk comes to each position once. -/
theorem nodup_positions (keyed : tree.Keyed) (path : List SlotName) :
    ((policy.positions path tree).map Position.path).Nodup := by
  revert path keyed
  refine tree.of_inner (motive := fun tree => tree.Keyed → ∀ path,
    ((policy.positions path tree).map Position.path).Nodup) ?_
  intro tree ih keyed path
  rw [positions_eq, List.map_cons, List.nodup_cons]
  have deeper {name : SlotName} {position : Position}
      (inside : position ∈ policy.within path tree name) :
      ∃ rest, position.path = path ++ name :: rest := by
    rw [within] at inside
    cases entry : tree.inner? name with
    | none =>
      rw [entry] at inside
      cases inside
    | some part =>
      rw [entry] at inside
      obtain ⟨rest, leads, _⟩ := policy.at?_of_mem_positions inside
      exact ⟨rest, by rw [leads, List.append_assoc]; rfl⟩
  split
  · constructor
    · intro again
      obtain ⟨position, inside, same⟩ := List.mem_map.mp again
      obtain ⟨name, _, within⟩ := List.mem_flatMap.mp inside
      obtain ⟨rest, leads⟩ := deeper within
      have short := congrArg List.length (same.symm.trans leads)
      simp at short
    · rw [below, List.map_flatMap, List.nodup_flatMap]
      constructor
      · intro name _
        rw [within]
        cases entry : tree.inner? name with
        | none => exact List.nodup_nil
        | some part => exact ih entry (keyed.inner entry) _
      · refine (policy.nodup_slots keyed).imp fun {name other} different => ?_
        intro common one another
        obtain ⟨first, inside, rfl⟩ := List.mem_map.mp one
        obtain ⟨second, insideToo, same⟩ := List.mem_map.mp another
        obtain ⟨rest, leads⟩ := deeper inside
        obtain ⟨restToo, leadsToo⟩ := deeper insideToo
        rw [leads, leadsToo] at same
        exact different (List.cons.inj (List.append_cancel_left same)).1.symm
  · exact ⟨List.not_mem_nil, List.nodup_nil⟩

end Policy

/-! ### Calls of handlers -/

/-- A call of a handler: the type it is declared for, and the position it is called at. -/
structure Invocation (H : Type) where
  declared : NodeType
  handler : H
  position : Position

/-- Whether a walk can go on at a position. It cannot at an object whose type names none. -/
def Position.isKnown (position : Position) : Bool := !position.tree.isUnknown

theorem Position.isKnown_iff : position.isKnown = true ↔ position.tree.isUnknown = false := by
  rw [isKnown, Bool.not_eq_true']

namespace Policy

variable {H : Type} (policy : Policy H)

/-- The call of a handler at a position, if there is a handler for what stands there. -/
def invocation? (position : Position) : Option (Invocation H) :=
  (policy.handler? position.tree).map fun found => ⟨found.1, found.2, position⟩

/-- A walk can go on where there is a handler. -/
theorem isKnown_of_handler? {call : NodeType × H} (found : policy.handler? tree = some call)
    (path : List SlotName) : Position.isKnown ⟨path, tree⟩ = true := by
  obtain ⟨own, typed, _⟩ := Option.bind_eq_some_iff.mp found
  rw [Position.isKnown, Tree.isUnknown, typed, Option.isNone_some, Bool.and_false, Bool.not_false]

theorem get?_of_handler? {call : NodeType × H} (found : policy.handler? tree = some call) :
    policy.handlers.get? call.1 = some call.2 := by
  obtain ⟨_, _, found⟩ := Option.bind_eq_some_iff.mp found
  obtain ⟨_, _, found⟩ := Option.bind_eq_some_iff.mp found
  obtain ⟨_, held, same⟩ := Option.bind_eq_some_iff.mp found
  cases same
  exact held

/-- The calls of handlers on a walk through some positions, up to the first at which it cannot go
on. -/
def invocations (positions : List Position) : List (Invocation H) :=
  (positions.takeWhile Position.isKnown).filterMap policy.invocation?

/-- Every call is at a position that has its handler. -/
theorem mem_of_mem_invocations {positions : List Position} {call : Invocation H}
    (among : call ∈ policy.invocations positions) : call.position ∈ positions ∧
      policy.handler? call.position.tree = some (call.declared, call.handler) := by
  obtain ⟨position, listed, called⟩ := List.mem_filterMap.mp among
  obtain ⟨_, found, rfl⟩ := Option.map_eq_some_iff.mp called
  exact ⟨(List.takeWhile_sublist _).mem listed, found⟩

/-- If a walk can go on everywhere, every handler is called. -/
theorem mem_invocations {positions : List Position} {declared : NodeType} {handler : H}
    (known : positions.all Position.isKnown = true) (member : position ∈ positions)
    (found : policy.handler? position.tree = some (declared, handler)) :
    ⟨declared, handler, position⟩ ∈ policy.invocations positions := by
  rw [invocations, List.takeWhile_eq_self_iff.mpr (List.all_eq_true.mp known)]
  exact List.mem_filterMap.mpr ⟨position, member, by rw [invocation?, found]; rfl⟩

/-- A walk that can go on does. -/
theorem invocations_append (known : first.all Position.isKnown = true) (second : List Position) :
    policy.invocations (first ++ second) =
      policy.invocations first ++ policy.invocations second := by
  have whole := List.all_eq_true.mp known
  rw [invocations, invocations, invocations, List.takeWhile_eq_self_iff.mpr whole,
    List.takeWhile_append_of_pos whole, List.filterMap_append]

/-- A walk that cannot go on comes to nothing more. -/
theorem invocations_append_of_unknown (unknown : first.all Position.isKnown = false)
    (second : List Position) : policy.invocations (first ++ second) = policy.invocations first := by
  have same : (first ++ second).takeWhile Position.isKnown = first.takeWhile Position.isKnown := by
    induction first with
    | nil => cases unknown
    | cons head rest ih =>
      rw [List.cons_append, List.takeWhile_cons, List.takeWhile_cons]
      cases known : head.isKnown with
      | false => rfl
      | true =>
        rw [List.all_cons, known, Bool.true_and] at unknown
        rw [ih unknown]
  rw [invocations, same, invocations]

theorem invocations_cons_some {declared : NodeType} {handler : H}
    (found : policy.handler? tree = some (declared, handler)) (rest : List Position) :
    policy.invocations (⟨path, tree⟩ :: rest) =
      ⟨declared, handler, ⟨path, tree⟩⟩ :: policy.invocations rest := by
  rw [invocations, List.takeWhile_cons, policy.isKnown_of_handler? found path, if_pos rfl,
    List.filterMap_cons, invocation?, found]
  rfl

/-- A position without a handler is passed over if the walk can go on there. -/
theorem invocations_cons_none (known : position.isKnown = true)
    (absent : policy.handler? position.tree = none) (rest : List Position) :
    policy.invocations (position :: rest) = policy.invocations rest := by
  rw [invocations, List.takeWhile_cons, known, if_pos rfl, List.filterMap_cons, invocation?, absent]
  rfl

/-- A walk passes over what has nothing in its slots. -/
theorem invocations_of_hollow (hollow : ∀ name, tree.inner? name = none) (path : List SlotName) :
    (policy.positions path tree).all Position.isKnown = true ∧
      policy.invocations (policy.positions path tree) = [] := by
  have untyped : tree.type? = none := by
    rw [Tree.type?, Tree.member, hollow]
    rfl
  have nothing : policy.below path tree = [] := by
    refine List.flatMap_eq_nil_iff.mpr fun name _ => ?_
    rw [within, hollow]
    rfl
  have known : Position.isKnown ⟨path, tree⟩ = true := by
    rw [Position.isKnown, Tree.isUnknown, hollow]
    rfl
  rw [policy.positions_eq, nothing, ite_self]
  refine ⟨by rw [List.all_cons, known]; rfl, ?_⟩
  rw [policy.invocations_cons_none known (policy.handler?_eq_none untyped)]
  rfl

theorem isSome_invocation? (position : Position) :
    (policy.invocation? position).isSome = true ↔
      ∃ own declared, position.tree.type? = some own ∧ declared ∈ policy.handlers.keys ∧
        own.isSubtypeOf declared = true := by
  rw [invocation?, Option.isSome_map, handler?]
  constructor
  · intro found
    obtain ⟨⟨declared, handler⟩, found⟩ := Option.isSome_iff_exists.mp found
    obtain ⟨own, typed, found⟩ := Option.bind_eq_some_iff.mp found
    obtain ⟨nearest, near, _⟩ := Option.bind_eq_some_iff.mp found
    refine ⟨own, nearest, typed, List.contains_iff_mem.mp (List.find?_some near), ?_⟩
    exact List.contains_iff_mem.mpr (List.mem_of_find?_eq_some near)
  · rintro ⟨own, declared, typed, among, derives⟩
    obtain ⟨nearest, near⟩ : ∃ nearest, policy.declared? own = some nearest := by
      refine Option.isSome_iff_exists.mp (List.find?_isSome.mpr ⟨declared, ?_, ?_⟩)
      · exact List.contains_iff_mem.mp derives
      · exact List.contains_iff_mem.mpr among
    obtain ⟨entry, inside, rfl⟩ := List.mem_map.mp
      (List.contains_iff_mem.mp (List.find?_some near))
    have handled : policy.handlers.get? entry.1 = some entry.2 := Assoc.mem_entries.mp inside
    rw [typed, Option.bind_eq_bind, Option.bind_some, near, Option.bind_eq_bind, Option.bind_some,
      handled]
    rfl

end Policy

/-- A log that handlers keep in their state, which may hold more than that: where it is to be found,
what a visit starts with, given its arguments, and what a handler adds when it is called. -/
structure Journal (H σ τ : Type) where
  view : σ → τ
  opening : List Value → τ → τ
  note : H → Position → τ → τ

namespace Journal

variable {H σ τ : Type} (journal : Journal H σ τ) (policy : Policy H)

/-- What the calls of handlers make of a log, one after another. -/
def replay (invocations : List (Invocation H)) (log : τ) : τ :=
  invocations.foldl (fun log call => journal.note call.handler call.position log) log

/-- What a walk through some positions makes of a log. -/
def record (positions : List Position) (log : τ) : τ :=
  journal.replay (policy.invocations positions) log

/-- A position with a handler is noted. -/
theorem record_cons_some {declared : NodeType} {handler : H}
    (found : policy.handler? tree = some (declared, handler)) (rest : List Position) (log : τ) :
    journal.record policy (⟨path, tree⟩ :: rest) log =
      journal.record policy rest (journal.note handler ⟨path, tree⟩ log) := by
  rw [record, policy.invocations_cons_some found]
  rfl

/-- Any other position at which a walk can go on is passed over. -/
theorem record_cons_none (known : position.isKnown = true)
    (absent : policy.handler? position.tree = none) (rest : List Position) (log : τ) :
    journal.record policy (position :: rest) log = journal.record policy rest log := by
  rw [record, policy.invocations_cons_none known absent, record]

end Journal

end CodeTree
