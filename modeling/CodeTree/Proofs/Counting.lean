/-
Counting the objects of a tree. What a test says of an object depends on the texts under its keys
and on which of them hold null, so that a change further down leaves the verdicts on everything
above it. The counts of a tree then follow those of the exchanged part: a removal takes away
what was removed, and mending an `if` adds nothing to the typed objects and the `if`s with two
branches taken together, since it uses up a branch for every node that it may add.
-/

import CodeTree.Proofs.Grafting
import Mathlib.Algebra.GroupWithZero.Nat

namespace CodeTree

variable {tree container item new node old other part : Tree} {items : List Tree} {position : Nat}
  {name slot : SlotName} {key : String}

namespace Tree

variable {path front : List SlotName} {members : List (String × Tree)}

/-! ### Counts -/

mutual

/-- How many places of a tree, its top included, pass a test. -/
def count (test : Tree → Bool) : Tree → Nat
  | leaf value => (test (leaf value)).toNat
  | array id items => (test (array id items)).toNat + countItems test items
  | object id members => (test (object id members)).toNat + countMembers test members
termination_by structural tree => tree

def countItems (test : Tree → Bool) : List Tree → Nat
  | [] => 0
  | item :: rest => count test item + countItems test rest
termination_by structural items => items

def countMembers (test : Tree → Bool) : List (String × Tree) → Nat
  | [] => 0
  | (_, part) :: rest => count test part + countMembers test rest
termination_by structural members => members

end

/-- How many places below the top of a tree pass a test. -/
def countBelow (test : Tree → Bool) : Tree → Nat
  | leaf _ => 0
  | array _ items => countItems test items
  | object _ members => countMembers test members

variable (test : Tree → Bool)

theorem count_eq (tree : Tree) : tree.count test = (test tree).toNat + tree.countBelow test := by
  cases tree <;> rfl

theorem countItems_eq (items : List Tree) : countItems test items = (items.map (count test)).sum := by
  induction items with
  | nil => rfl
  | cons item rest ih =>
    rw [countItems, ih, List.map_cons, List.sum_cons]

theorem countMembers_eq (members : List (String × Tree)) :
    countMembers test members = (members.map fun member => member.2.count test).sum := by
  induction members with
  | nil => rfl
  | cons member rest ih =>
    rw [countMembers, ih, List.map_cons, List.sum_cons]

theorem countItems_append (front behind : List Tree) :
    countItems test (front ++ behind) = countItems test front + countItems test behind := by
  rw [countItems_eq, countItems_eq, countItems_eq, List.map_append, List.sum_append]

/-- An element counts towards the whole. -/
theorem countItems_split (there : items[position]? = some item) :
    countItems test items = countItems test (items.take position) + item.count test +
      countItems test (items.drop (position + 1)) := by
  obtain ⟨inside, rfl⟩ := List.getElem?_eq_some_iff.mp there
  have split := List.take_append_drop position items
  rw [List.drop_eq_getElem_cons inside] at split
  conv_lhs => rw [← split]
  rw [countItems_append, countItems, Nat.add_assoc]

theorem countItems_modify (there : items[position]? = some item) (change : Tree → Tree) :
    countItems test (items.modify position change) + item.count test =
      countItems test items + (change item).count test := by
  have inside := (List.getElem?_eq_some_iff.mp there).1
  have held := (List.getElem?_eq_some_iff.mp there).2
  rw [List.modify_eq_take_cons_drop inside, held, countItems_append, countItems,
    countItems_split test there]
  omega

/-- What stands under a key counts, and what is missing does not. -/
theorem countMembers_put (key : String) (new : Tree) (members : List (String × Tree)) :
    countMembers test (Entries.put key new members) +
        (Entries.lookup key members).elim 0 (count test) =
      countMembers test members + new.count test := by
  induction members with
  | nil => simp [Entries.put, Entries.lookup, countMembers]
  | cons head rest ih =>
    obtain ⟨other, part⟩ := head
    rw [Entries.put, Entries.lookup]
    split
    · rw [countMembers, countMembers, Option.elim]
      omega
    · rw [countMembers, countMembers]
      omega

theorem countMembers_drop (key : String) (distinct : (members.map Prod.fst).Nodup) :
    countMembers test (Entries.drop key members) +
        (Entries.lookup key members).elim 0 (count test) = countMembers test members := by
  induction members with
  | nil => rfl
  | cons head rest ih =>
    obtain ⟨other, part⟩ := head
    rw [List.map_cons, List.nodup_cons] at distinct
    have onward := ih distinct.2
    rw [Entries.drop, List.filter_cons, Entries.lookup]
    by_cases same : key = other
    · subst same
      have absent : Entries.lookup key rest = none := by
        refine Option.eq_none_iff_forall_ne_some.mpr fun value found => distinct.1 ?_
        exact List.mem_map.mpr ⟨(key, value), (Entries.mem_iff_lookup distinct.2).mpr found, rfl⟩
      rw [absent] at onward
      rw [if_neg (by simp), if_pos rfl, countMembers, Option.elim, ← onward, Entries.drop]
      simp only [Option.elim]
      omega
    · rw [if_pos (by simpa using same), if_neg same, countMembers, countMembers]
      rw [Entries.drop] at onward
      omega

theorem countMembers_modify (distinct : (members.map Prod.fst).Nodup)
    (found : Entries.lookup key members = some part) (change : Tree → Tree) :
    countMembers test (members.map fun member =>
        if member.1 = key then (member.1, change member.2) else member) + part.count test =
      countMembers test members + (change part).count test := by
  have same : (members.map fun member =>
      if member.1 = key then (member.1, change member.2) else member) =
      Entries.put key (change part) members := by
    rw [Entries.put_of_mem distinct found]
    refine List.map_congr_left fun member inside => ?_
    split
    · rename_i equal
      rw [Entries.eq_of_lookup distinct found inside equal]
    · rfl
  have counted := countMembers_put test key (change part) members
  rw [found, Option.elim] at counted
  rw [same, counted]

/-- A change in one slot changes the count below the top by what it does there. -/
theorem countBelow_graft {next : Tree} (keyed : tree.Keyed) (entry : tree.inner? name = some next)
    (rest : List SlotName) (new : Tree) :
    (tree.graft (name :: rest) new).countBelow test + next.count test =
      tree.countBelow test + (next.graft rest new).count test := by
  cases tree with
  | leaf value => cases entry
  | array id items =>
    cases name with
    | key characters => cases entry
    | index position => exact countItems_modify test entry (·.graft rest new)
  | object id members =>
    cases name with
    | index position => cases entry
    | key characters => exact countMembers_modify test (keyed [] id members rfl) entry (·.graft rest new)

/-- A slot that is removed counts no longer. -/
theorem countBelow_removed (keyed : tree.Keyed) (entry : tree.inner? slot = some old) :
    (tree.exchangeSlot slot []).countBelow test + old.count test = tree.countBelow test := by
  cases tree with
  | leaf value => cases entry
  | array id items =>
    cases slot with
    | key characters => cases entry
    | index position =>
      have entry : items[position]? = some old := entry
      show countItems test (splice position 1 [] items) + _ = countItems test items
      rw [splice, List.append_nil, countItems_append, countItems_split test entry]
      omega
  | object id members =>
    cases slot with
    | index position => cases entry
    | key characters =>
      have entry : Entries.lookup characters members = some old := entry
      have counted := countMembers_drop test characters (keyed [] id members rfl)
      rw [entry] at counted
      exact counted

/-! ### Tests -/

variable {test}

/-- What a test sees of a tree in a slot: which text it is, and whether it is null. -/
def glance (tree : Tree) : Option String × Bool := (tree.text?, tree.isNull)

theorem glance_of_value (same : tree.value = other.value) : tree.glance = other.glance := by
  rw [glance, glance, text?, text?, isNull, isNull, same]

/-- A test that only objects can pass, by a glance at what stands under their keys. -/
structure Glances (test : Tree → Bool) : Prop where
  leaf : ∀ value, test (.leaf value) = false
  shallow : ∀ tree other, (∀ key, (tree.inner? (.key key)).map glance =
    (other.inner? (.key key)).map glance) → test tree = test other

/-- A graft that looks like what it replaces leaves the looks of everything above it. -/
theorem glance_graft {rest : List SlotName} (there : tree.at? (name :: rest) = some old)
    (same : new.glance = old.glance) (key : String) :
    ((tree.graft (name :: rest) new).inner? (.key key)).map glance =
      (tree.inner? (.key key)).map glance := by
  obtain ⟨next, entry, onward⟩ := Option.bind_eq_some_iff.mp there
  rw [inner?_graft]
  split
  · rename_i equal
    rw [equal, entry, Option.map_some, Option.map_some, Option.map_some]
    cases rest with
    | nil =>
      cases onward
      rw [graft, same]
    | cons step beyond => rw [glance_of_value (value_graft next step beyond new)]
  · rfl

/-- A graft that looks like what it replaces changes a count by what it does in its place. -/
theorem Glances.count_graft (glances : Glances test) (keyed : tree.Keyed)
    (there : tree.at? path = some old) (same : new.glance = old.glance) :
    (tree.graft path new).count test + old.count test = tree.count test + new.count test := by
  induction path generalizing tree with
  | nil =>
    cases there
    rw [graft, Nat.add_comm]
  | cons name rest ih =>
    have verdict := glances.shallow _ _ (glance_graft there same)
    obtain ⟨next, entry, onward⟩ := Option.bind_eq_some_iff.mp there
    have deeper := ih (keyed.inner entry) onward
    have below := countBelow_graft test keyed entry rest new
    rw [count_eq, count_eq test tree, verdict]
    omega

/-- A removal takes the count of what was removed away, if it does not make its container pass. -/
theorem Glances.count_removed (glances : Glances test) (keyed : tree.Keyed)
    (reached : tree.at? front = some container) (entry : container.inner? slot = some old)
    (loses : test (container.exchangeSlot slot []) = true → test container = true) :
    (tree.exchange front slot []).count test + old.count test ≤ tree.count test := by
  have outer := glances.count_graft keyed reached
    (glance_of_value (value_exchangeSlot slot [] container))
  have inner := countBelow_removed test (keyed.part reached) entry
  have verdict : (test (container.exchangeSlot slot [])).toNat ≤ (test container).toNat := by
    cases passes : test (container.exchangeSlot slot []) with
    | false => exact Nat.zero_le _
    | true => rw [loses passes]
  rw [count_eq test container, count_eq test (container.exchangeSlot slot [])] at outer
  rw [exchange, reached, Option.elim]
  omega

/-! ### Typed objects, forked `if`s and unknown types -/

def isTyped (tree : Tree) : Bool := tree.type?.isSome

/-- Whether a tree is an `if` with a second branch. -/
def isForked (tree : Tree) : Bool := tree.isOf .ifStatement && !(tree.member "alternate").isNull

/-- Whether what stands under the `type` key of a tree names no type. -/
def isUnknown (tree : Tree) : Bool := (tree.inner? (.key "type")).isSome && tree.type?.isNone

section Glance

variable (same : ∀ key, (tree.inner? (.key key)).map glance = (other.inner? (.key key)).map glance)

include same

theorem glance_member (key : String) : (tree.member key).glance = (other.member key).glance := by
  have equal := same key
  rw [member, member]
  cases here : tree.inner? (.key key) <;> cases there : other.inner? (.key key) <;>
    rw [here, there] at equal <;> simp_all

theorem type?_of_glance : tree.type? = other.type? := by
  rw [type?, type?]
  exact congrArg (fun seen => seen.1.bind NodeType.ofName?) (glance_member same "type")

end Glance

theorem glances_isTyped : Glances isTyped where
  leaf _ := rfl
  shallow tree other same := by rw [isTyped, isTyped, type?_of_glance same]

theorem glances_isForked : Glances isForked where
  leaf _ := rfl
  shallow tree other same := by
    rw [isForked, isForked, isOf, isOf, type?_of_glance same]
    exact congrArg (fun seen => _ && !seen.2) (glance_member same "alternate")

theorem glances_isUnknown : Glances isUnknown where
  leaf _ := rfl
  shallow tree other same := by
    have present : (tree.inner? (.key "type")).isSome = (other.inner? (.key "type")).isSome := by
      rw [← Option.isSome_map, same "type", Option.isSome_map]
    rw [isUnknown, isUnknown, type?_of_glance same, present]

/-! ### Leaner trees -/

/-- What pruning lives on: the typed objects of a tree, and its `if`s with a second branch. -/
def stock (tree : Tree) : Nat := tree.count isTyped + tree.count isForked

/-- A tree that has come from another by giving things up. -/
structure Leaner (after before : Tree) : Prop where
  type : after.type? = before.type?
  stock : after.stock ≤ before.stock
  unknown : after.count isUnknown ≤ before.count isUnknown

theorem Leaner.refl (tree : Tree) : Leaner tree tree := ⟨rfl, Nat.le_refl _, Nat.le_refl _⟩

theorem Leaner.trans {first second third : Tree} (left : Leaner second first)
    (right : Leaner third second) : Leaner third first :=
  ⟨right.type.trans left.type, Nat.le_trans right.stock left.stock,
    Nat.le_trans right.unknown left.unknown⟩

/-! ### Removals -/

section Removed

theorem inner?_key_removed (container : Tree) (slot : SlotName) (key : String) :
    (container.exchangeSlot slot []).inner? (.key key) =
      if slot = .key key then none else container.inner? (.key key) := by
  cases container with
  | leaf value => cases slot <;> simp [exchangeSlot, inner?]
  | array id items => cases slot <;> simp [exchangeSlot, inner?]
  | object id members =>
    cases slot with
    | index position => rfl
    | key characters =>
      show Entries.lookup key (Entries.drop characters members) = _
      rw [Entries.lookup_drop]
      by_cases same : key = characters
      · rw [if_pos same, if_pos (congrArg SlotName.key same.symm)]
      · rw [if_neg same, if_neg fun equal => same (SlotName.key.inj equal).symm]
        rfl

theorem inner?_removed (entry : (container.exchangeSlot slot []).inner? (.key key) = some part) :
    container.inner? (.key key) = some part := by
  rw [inner?_key_removed] at entry
  split at entry
  · cases entry
  · exact entry

theorem Keyed.removed (keyed : container.Keyed) (slot : SlotName) :
    (container.exchangeSlot slot []).Keyed := by
  cases container with
  | leaf value => cases slot <;> exact keyed
  | array id items =>
    cases slot with
    | key characters => exact keyed
    | index position =>
      refine .mk nofun fun name next entry => ?_
      cases name with
      | key characters => cases entry
      | index place =>
        have entry : (splice position 1 [] items)[place]? = some next := entry
        have member := List.mem_of_getElem? entry
        rw [splice, List.append_nil] at member
        obtain ⟨stood, there⟩ : ∃ stood, items[stood]? = some next := by
          refine List.mem_iff_getElem?.mp ?_
          rcases List.mem_append.mp member with front | behind
          · exact List.mem_of_mem_take front
          · exact List.mem_of_mem_drop behind
        exact @Keyed.inner _ _ (.index stood) keyed there
  | object id members =>
    cases slot with
    | index position => exact keyed
    | key characters => exact keyed.drop characters

variable (entry : container.inner? slot = some old) (wordless : old.text? = none)

include entry wordless

theorem type?_removed : (container.exchangeSlot slot []).type? = container.type? :=
  type?_exchangeSlot entry wordless nofun

theorem isTyped_removed (passes : isTyped (container.exchangeSlot slot []) = true) :
    isTyped container = true := by
  rw [isTyped, type?_removed entry wordless] at passes
  exact passes

theorem isForked_removed (passes : isForked (container.exchangeSlot slot []) = true) :
    isForked container = true := by
  rw [isForked, isOf, type?_removed entry wordless, Bool.and_eq_true] at passes
  rw [isForked, isOf, passes.1, Bool.true_and]
  have branch := passes.2
  rw [member] at branch ⊢
  cases there : (container.exchangeSlot slot []).inner? (.key "alternate") with
  | none =>
    rw [there] at branch
    cases branch
  | some part =>
    rw [there] at branch
    rw [inner?_removed there]
    exact branch

theorem isUnknown_removed (passes : isUnknown (container.exchangeSlot slot []) = true) :
    isUnknown container = true := by
  rw [isUnknown, type?_removed entry wordless, Bool.and_eq_true] at passes
  obtain ⟨part, there⟩ := Option.isSome_iff_exists.mp passes.1
  rw [isUnknown, passes.2, inner?_removed there]
  rfl

end Removed

/-- Removing an object makes a tree leaner, by that object at least. -/
theorem leaner_removed (keyed : tree.Keyed) (there : tree.at? (front ++ [slot]) = some old)
    (wordless : old.text? = none) :
    (tree.exchange front slot []).Keyed ∧ Leaner (tree.exchange front slot []) tree ∧
      (tree.exchange front slot []).stock + old.isTyped.toNat ≤ tree.stock := by
  obtain ⟨container, reached, entry⟩ := at?_concat.mp there
  have typed := glances_isTyped.count_removed keyed reached entry (isTyped_removed entry wordless)
  have forked := glances_isForked.count_removed keyed reached entry (isForked_removed entry wordless)
  have unknown :=
    glances_isUnknown.count_removed keyed reached entry (isUnknown_removed entry wordless)
  rw [count_eq isTyped old] at typed
  refine ⟨?_, ⟨type?_exchange there wordless nofun, ?_, ?_⟩, ?_⟩
  · rw [exchange, reached, Option.elim]
    exact keyed.graft ((keyed.part reached).removed slot) front
  · rw [stock, stock]
    omega
  · omega
  · rw [stock, stock]
    omega

/-! ### Mended `if`s -/

/-- A member counts towards what stands below the top. -/
theorem Glances.count_member_le (glances : Glances test) (tree : Tree) (key : String) :
    (tree.member key).count test ≤ tree.countBelow test := by
  have missing : (Tree.leaf .null).count test = 0 := by
    rw [count, glances.leaf]
    rfl
  cases tree with
  | leaf value => exact Nat.le_of_eq missing
  | array id items =>
    show (Tree.leaf .null).count test ≤ _
    rw [missing]
    exact Nat.zero_le _
  | object id members =>
    have counted := countMembers_put test key (Tree.leaf .null) members
    rw [missing] at counted
    rw [member, inner?]
    show _ ≤ countMembers test members
    cases found : Entries.lookup key members with
    | none =>
      rw [Option.getD_none, missing]
      exact Nat.zero_le _
    | some part =>
      rw [found, Option.elim] at counted
      rw [Option.getD_some]
      omega

/-- The count of what stands under a key, be it missing or not. -/
theorem Glances.elim_lookup (glances : Glances test) (id : CompositeId) (key : String)
    (members : List (String × Tree)) :
    (Entries.lookup key members).elim 0 (count test) = ((object id members).member key).count test := by
  rw [member, inner?]
  cases Entries.lookup key members with
  | none =>
    rw [Option.getD_none, count, glances.leaf]
    rfl
  | some part => rfl

/-- A statement of the test counts for itself and its test. -/
theorem Glances.count_testStatement (glances : Glances test) (fresh : CompositeId) (node : Tree) :
    (node.testStatement fresh).count test =
      (test (node.testStatement fresh)).toNat + (node.member "test").count test := by
  rw [count_eq]
  show _ + countMembers test [("type", .leaf _), ("expression", node.member "test")] = _
  simp [countMembers, count, glances.leaf]

/-- A negated test has one typed object more at most. -/
theorem count_negation (fresh : CompositeId) (tested : Tree) :
    (negation fresh tested).count isTyped ≤ tested.count isTyped + 1 ∧
      (negation fresh tested).count isForked ≤ tested.count isForked ∧
      (negation fresh tested).count isUnknown ≤ tested.count isUnknown := by
  have taken {test : Tree → Bool} (glances : Glances test) :
      (tested.member "argument").count test ≤ tested.count test := by
    rw [count_eq test tested]
    exact Nat.le_trans (glances.count_member_le tested "argument") (Nat.le_add_left _ _)
  rw [negation]
  split
  · exact ⟨Nat.le_succ_of_le (taken glances_isTyped), taken glances_isForked,
      taken glances_isUnknown⟩
  · have wrapped {test : Tree → Bool} (glances : Glances test) :
        (object fresh [("type", leaf (.text NodeType.unaryExpression.name)),
          ("operator", leaf (.text "!")), ("argument", tested),
          ("prefix", leaf (.bool true))]).count test =
        (test (object fresh [("type", leaf (.text NodeType.unaryExpression.name)),
          ("operator", leaf (.text "!")), ("argument", tested),
          ("prefix", leaf (.bool true))])).toNat + tested.count test := by
      rw [count_eq]
      simp [countBelow, countMembers, count, glances.leaf]
    rw [wrapped glances_isTyped, wrapped glances_isForked, wrapped glances_isUnknown]
    refine ⟨?_, ?_, ?_⟩
    · exact Nat.le_of_eq (Nat.add_comm _ _)
    · exact Nat.le_of_eq (Nat.zero_add _)
    · exact Nat.le_of_eq (Nat.zero_add _)

section Mended

variable (typed : node.type? = some .ifStatement) (keyed : node.Keyed) (fresh : CompositeId)

include typed keyed

/-- Turning an `if` around that has lost its first branch changes what stands below it by the
negation of its test. -/
theorem Glances.countBelow_turned (glances : Glances test)
    (gone : (node.member "consequent").isNull = true) :
    (node.turned fresh).countBelow test + (node.member "test").count test =
      node.countBelow test + (negation fresh (node.member "test")).count test := by
  obtain ⟨id, members, rfl⟩ := exists_object_of_type typed
  have missing : (Tree.leaf .null).count test = 0 := by
    rw [count, glances.leaf]
    rfl
  have distinct := keyed [] id members rfl
  have tested := countMembers_put test "test"
    (negation fresh ((object id members).member "test")) members
  have moved := countMembers_put test "consequent" ((object id members).member "alternate")
    (Entries.put "test" (negation fresh ((object id members).member "test")) members)
  have dropped := countMembers_drop test "alternate" (Entries.nodup_keys_put "consequent"
    ((object id members).member "alternate") _ (Entries.nodup_keys_put "test"
      (negation fresh ((object id members).member "test")) _ distinct))
  rw [Entries.lookup_put, if_neg (by decide), glances.elim_lookup id,
    eq_leaf_of_isNull gone, missing] at moved
  rw [Entries.lookup_put, if_neg (by decide), Entries.lookup_put, if_neg (by decide),
    glances.elim_lookup id] at dropped
  rw [glances.elim_lookup id] at tested
  rw [turned, countBelow, countBelow]
  omega

/-- Mending an `if` uses up its second branch if it adds a typed object. -/
theorem stock_mended : (node.mended fresh).stock ≤ node.stock ∧
    (node.mended fresh).count isUnknown ≤ node.count isUnknown := by
  have isIf : node.isOf .ifStatement = true := (isOf_iff rfl).mpr typed
  have known : isUnknown node = false := by rw [isUnknown, typed, Option.isNone_some, Bool.and_false]
  have counts : isTyped node = true := by rw [isTyped, typed, Option.isSome_some]
  rw [mended, stock, stock]
  split
  · rename_i gone
    split
    · have typedBelow := glances_isTyped.count_member_le node "test"
      have forkedBelow := glances_isForked.count_member_le node "test"
      have unknownBelow := glances_isUnknown.count_member_le node "test"
      rw [glances_isTyped.count_testStatement, glances_isForked.count_testStatement,
        glances_isUnknown.count_testStatement, count_eq isTyped node, count_eq isForked node,
        count_eq isUnknown node, counts,
        show isTyped (node.testStatement fresh) = true from rfl,
        show isForked (node.testStatement fresh) = false from rfl,
        show isUnknown (node.testStatement fresh) = false from rfl, Bool.toNat_false]
      omega
    · rename_i other
      have typedBelow := glances_isTyped.countBelow_turned typed keyed fresh gone
      have forkedBelow := glances_isForked.countBelow_turned typed keyed fresh gone
      have unknownBelow := glances_isUnknown.countBelow_turned typed keyed fresh gone
      obtain ⟨typedTest, forkedTest, unknownTest⟩ := count_negation fresh (node.member "test")
      have turnedType := type?_turned typed fresh
      have forked : isForked node = true := by
        rw [isForked, isIf, Bool.true_and]
        simpa using other
      have straight : isForked (node.turned fresh) = false := by
        rw [isForked, member_turned typed, if_pos rfl]
        exact Bool.and_false _
      have turnedKnown : isUnknown (node.turned fresh) = false := by
        rw [isUnknown, turnedType, Option.isNone_some, Bool.and_false]
      have turnedCounts : isTyped (node.turned fresh) = true := by
        rw [isTyped, turnedType, Option.isSome_some]
      rw [count_eq isTyped, count_eq isTyped node, count_eq isForked, count_eq isForked node,
        count_eq isUnknown, count_eq isUnknown node, counts, turnedCounts, forked, straight,
        known, turnedKnown, Bool.toNat_true, Bool.toNat_false]
      omega
  · exact ⟨Nat.le_refl _, Nat.le_refl _⟩

omit keyed in
theorem glance_mended : (node.mended fresh).glance = node.glance := by
  obtain ⟨id, members, rfl⟩ := exists_object_of_type typed
  rw [mended]
  split
  · split <;> rfl
  · rfl

end Mended

/-- Mending an `if` makes a tree leaner. -/
theorem leaner_mendIf (keyed : tree.Keyed) (there : tree.at? path = some node)
    (typed : node.type? = some .ifStatement) (fresh : CompositeId) :
    Leaner (mendIf fresh path node tree) tree := by
  have counts := stock_mended typed (keyed.part there) fresh
  have typedOuter := glances_isTyped.count_graft keyed there (glance_mended typed fresh)
  have forkedOuter := glances_isForked.count_graft keyed there (glance_mended typed fresh)
  have unknownOuter := glances_isUnknown.count_graft keyed there (glance_mended typed fresh)
  have grafted (kept : (tree.graft path (node.mended fresh)).type? = tree.type?) :
      Leaner (tree.graft path (node.mended fresh)) tree := by
    refine ⟨kept, ?_, by omega⟩
    rw [stock, stock] at counts ⊢
    omega
  rw [mendIf]
  split
  · rename_i gone
    rw [mended, if_pos gone] at grafted
    rcases List.eq_nil_or_concat path with rfl | ⟨front, slot, rfl⟩
    · -- A root that has lost both branches stays as it is.
      cases there
      split
      · exact Leaner.refl tree
      · rename_i other
        rw [if_neg other] at grafted
        exact grafted ((type?_turned typed fresh).trans typed.symm)
    · rw [List.concat_eq_append] at there grafted ⊢
      have kept : (tree.graft (front ++ [slot]) (node.mended fresh)).type? = tree.type? := by
        cases front with
        | nil => exact type?_of_glance (glance_graft there (glance_mended typed fresh))
        | cons _ _ => exact type?_of_glance (glance_graft there (glance_mended typed fresh))
      rw [mended, if_pos gone] at kept
      split
      · rename_i alone
        rw [if_pos alone] at grafted kept
        rw [replaceAt_concat, exchange_single keyed there]
        exact grafted kept
      · rename_i other
        rw [if_neg other] at grafted kept
        exact grafted kept
  · exact Leaner.refl tree

/-! ### Pruned trees -/

/-- Removing an object at the end of a path, or nothing at the root. -/
theorem leaner_replaceAt (keyed : tree.Keyed) (there : tree.at? path = some old)
    (wordless : old.text? = none) :
    (tree.replaceAt path []).Keyed ∧ Leaner (tree.replaceAt path []) tree ∧
      (path ≠ [] → (tree.replaceAt path []).stock + old.isTyped.toNat ≤ tree.stock) := by
  rcases List.eq_nil_or_concat path with rfl | ⟨front, slot, rfl⟩
  · exact ⟨keyed, Leaner.refl tree, fun below => absurd rfl below⟩
  · rw [List.concat_eq_append] at there ⊢
    rw [replaceAt_concat]
    obtain ⟨keyedAfter, leaner, less⟩ := leaner_removed keyed there wordless
    exact ⟨keyedAfter, leaner, fun _ => less⟩

theorem text?_of_typed (typed : tree.type? ≠ none) : tree.text? = none := by
  obtain ⟨id, members, rfl⟩ := exists_object typed
  rfl

/-- What pruning does after the removal makes the tree leaner still. -/
theorem leaner_prune_rest (keyed : tree.Keyed) (there : tree.at? path = some old)
    (wordless : old.text? = none) (fresh : CompositeId) :
    Leaner (tree.prune fresh path) (tree.replaceAt path []) := by
  generalize counted : path.length = length
  induction length using Nat.strong_induction_on generalizing tree old path with
  | _ length ih =>
  have rest := (leaner_replaceAt keyed there wordless).1
  rw [prune]
  split
  · exact Leaner.refl _
  · rename_i above found
    split
    · exact Leaner.refl _
    · rename_i node stands
      split
      · rename_i hollow
        split
        · rename_i shorter
          have typed : node.type? ≠ none := by
            intro untyped
            rw [isHollow, isOf, isOf, untyped] at hollow
            cases hollow
          exact (leaner_replaceAt rest stands (text?_of_typed typed)).2.1.trans
            (ih above.length (counted ▸ shorter) rest stands
              (text?_of_typed typed) rfl)
        · exact Leaner.refl _
      · split
        · rename_i branch
          exact leaner_mendIf rest stands ((isOf_iff rfl).mp branch) fresh
        · exact Leaner.refl _

/-- Pruning a typed object below the root makes a tree leaner, and takes from its stock. -/
theorem leaner_prune {tree old : Tree} {path : List SlotName} (keyed : tree.Keyed)
    (there : tree.at? path = some old) (typed : old.type? ≠ none) (below : path ≠ [])
    (fresh : CompositeId) :
    Leaner (tree.prune fresh path) tree ∧ (tree.prune fresh path).stock < tree.stock := by
  have wordless := text?_of_typed typed
  obtain ⟨_, leaner, less⟩ := leaner_replaceAt keyed there wordless
  have after := leaner_prune_rest keyed there wordless fresh
  have counts : old.isTyped = true := Option.isSome_iff_ne_none.mpr typed
  have removed := less below
  rw [counts, Bool.toNat_true] at removed
  exact ⟨leaner.trans after, Nat.lt_of_le_of_lt after.stock removed⟩

end Tree

end CodeTree
