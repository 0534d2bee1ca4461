/-
Mending an `if` whose first branch is gone, told of trees. Without another branch the `if` gives
way to a statement of its test. With another branch it is turned around: that branch comes under
the other key, and the test is negated, by taking a `!` off it or by putting one in front. The
mended world is in good order again, although the branch stands under both keys on the way.
-/

import CodeTree.Node.Prune
import CodeTree.Proofs.Reworking
import CodeTree.Proofs.TypedTrees

namespace CodeTree

variable {world : World} {store : Store} {c : CursorId} {id : CompositeId}
  {path place : List SlotName}

/-! ### Mended trees -/

namespace Tree

/-- The negation of a test: what the `!` stands before, or the test with a `!` before it. -/
def negation (fresh : CompositeId) (test : Tree) : Tree :=
  if test.isOf .unaryExpression && (test.member "operator").text? == some "!" then
    test.member "argument"
  else
    .object fresh [("type", .leaf (.text NodeType.unaryExpression.name)),
      ("operator", .leaf (.text "!")), ("argument", test), ("prefix", .leaf (.bool true))]

/-- The statement of the test of an `if`. -/
def testStatement (fresh : CompositeId) (node : Tree) : Tree :=
  .object fresh [("type", .leaf (.text NodeType.expressionStatement.name)),
    ("expression", node.member "test")]

/-- An `if` that is turned around. -/
def turned (fresh : CompositeId) : Tree → Tree
  | object id members =>
    let test := (object id members).member "test"
    let alternate := (object id members).member "alternate"
    object id (Entries.drop "alternate" (Entries.put "consequent" alternate
      (Entries.put "test" (negation fresh test) members)))
  | tree => tree

/-- The tree after some trees have taken the place of what stood at the end of a path. -/
def replaceAt (tree : Tree) (path : List SlotName) (trees : List Tree) : Tree :=
  path.getLast?.elim tree fun slot => tree.exchange path.dropLast slot trees

/-- The tree after the `if` at the end of a path has been mended. -/
def mendIf (fresh : CompositeId) (path : List SlotName) (node tree : Tree) : Tree :=
  if (node.member "consequent").isNull then
    if (node.member "alternate").isNull then tree.replaceAt path [node.testStatement fresh]
    else tree.graft path (node.turned fresh)
  else tree

theorem replaceAt_concat (tree : Tree) (front : List SlotName) (slot : SlotName)
    (trees : List Tree) :
    tree.replaceAt (front ++ [slot]) trees = tree.exchange front slot trees := by
  simp [replaceAt]

/-- Whether an `if` without branches gives way to a statement. -/
def isReducible (node : Tree) : Bool :=
  (node.member "consequent").isNull && (node.member "alternate").isNull

/-- The mended form of an `if`. -/
def mended (fresh : CompositeId) (node : Tree) : Tree :=
  if (node.member "consequent").isNull then
    if (node.member "alternate").isNull then node.testStatement fresh else node.turned fresh
  else node

section Turned

variable {node : Tree} (typed : node.type? = some .ifStatement) (fresh : CompositeId)

include typed

theorem type?_turned : (node.turned fresh).type? = some .ifStatement := by
  obtain ⟨id, members, rfl⟩ := exists_object_of_type typed
  rw [← typed]
  simp [turned, type?, member, inner?, Entries.lookup_drop, Entries.lookup_put]

theorem member_turned (key : String) : (node.turned fresh).member key =
    if key = "alternate" then .leaf .null else if key = "consequent" then node.member "alternate"
    else if key = "test" then negation fresh (node.member "test") else node.member key := by
  obtain ⟨id, members, rfl⟩ := exists_object_of_type typed
  rw [turned, member, inner?, Entries.lookup_drop, Entries.lookup_put, Entries.lookup_put]
  split
  · rfl
  · split
    · rfl
    · split <;> rfl

end Turned

end Tree

namespace Store

/-! ### Members -/

section Member

variable {root holder : Value} (there : store.part? root place = some holder) (key : String)

include there

/-- A member is a part, or it is missing and reads as null. -/
theorem member_cases : store.part? root (place ++ [.key key]) = some (store.member holder key) ∨
    store.member holder key = .null := by
  rw [member_eq_inner?]
  cases entry : store.inner? holder (.key key) with
  | none => exact .inr rfl
  | some part => exact .inl (part?_concat.mpr ⟨holder, there, entry⟩)

/-- What stands in a member stands in the whole. -/
theorem part?_member (reached : store.part? (store.member holder key) path = some (.composite id)) :
    store.part? root (place ++ .key key :: path) = some (.composite id) := by
  rcases member_cases there key with stands | missing
  · rw [show place ++ SlotName.key key :: path = place ++ [.key key] ++ path by simp, part?_append,
      stands, Option.bind_some, reached]
  · rw [missing] at reached
    cases (part?_of_plain rfl reached).2

theorem Unshared.member (unshared : store.Unshared root) :
    store.Unshared (store.member holder key) := by
  intro path other id first second
  have equal := unshared (part?_member there key first) (part?_member there key second)
  exact (List.cons.inj (List.append_cancel_left equal)).2

/-- A member of a part can be made a tree of. -/
theorem Intact.member (intact : store.Intact root) : store.Intact (store.member holder key) := by
  rcases member_cases there key with stands | missing
  · exact intact.part stands
  · rw [missing]
    exact intact_of_plain nofun rfl

end Member

end Store

/-! ### Fresh nodes around a value -/

/-- One slot of a composite holds a value, and all others hold primitives. -/
structure Composite.Wraps (contents : Composite) (name : SlotName) (value : Value) : Prop where
  held : contents.inner? name = some value
  plain : ∀ {other part}, contents.inner? other = some part →
    other = name ∨ (∀ id, part ≠ .composite id) ∧ part.isNaN = false

namespace Composite.Wraps

variable {contents : Composite} {name : SlotName} {value : Value}
  (wraps : contents.Wraps name value) (intact : store.Intact value)

include wraps intact

theorem intact_entry {other : SlotName} {part : Value} (entry : contents.inner? other = some part) :
    store.Intact part := by
  rcases wraps.plain entry with rfl | ⟨plain, proper⟩
  · cases wraps.held.symm.trans entry
    exact intact
  · exact Store.intact_of_plain plain proper

omit intact in
/-- Composites stand in the one slot only. -/
theorem name_of_composite {other : SlotName} {part : Value} {id : CompositeId}
    (entry : contents.inner? other = some part)
    (reached : store.part? part path = some (.composite id)) : other = name := by
  rcases wraps.plain entry with same | ⟨plain, _⟩
  · exact same
  · exact absurd reached (Store.part?_ne_composite plain id)

/-- Where a composite stands in a new one around a value. -/
theorem composite {id : CompositeId}
    (there : (store.grown contents).part? (.composite store.composites.size) path =
      some (.composite id)) :
    path = [] ∧ Value.composite id = .composite store.composites.size ∨
      ∃ rest, path = name :: rest ∧ store.part? value rest = some (.composite id) := by
  rcases Store.part_of_grown (fun entry => (wraps.intact_entry intact entry).whole) there with
    ⟨rfl, top⟩ | ⟨_, rest, _, rfl, entry, reached⟩
  · exact .inl ⟨rfl, top⟩
  · cases wraps.name_of_composite entry reached
    cases wraps.held.symm.trans entry
    exact .inr ⟨rest, rfl, reached⟩

/-- A tree can be made of a new composite around a value that one can be made of. -/
theorem intact_new : (store.grown contents).Intact (.composite store.composites.size) :=
  Store.intact_grown (wraps.intact_entry intact) fun entry entryToo reached reachedToo =>
    (wraps.name_of_composite entry reached).trans (wraps.name_of_composite entryToo reachedToo).symm

/-- The tree of a new composite has the old tree of the value that it is built around. -/
theorem tree :
    (store.grown contents).tree (.composite store.composites.size) =
      contents.tree store.composites.size store.tree := by
  have present := store.contents?_grown_self contents
  rw [Store.tree_of_some (wraps.intact_new intact).unshared present]
  refine Store.tree_contents_congr present fun {other part} entry => ?_
  rw [Store.inner?_of_contents present] at entry
  rcases wraps.plain entry with rfl | ⟨plain, _⟩
  · cases wraps.held.symm.trans entry
    exact Store.Spares.tree (intact.whole.contents?_grown contents) intact.unshared
  · cases part with
    | composite id => exact absurd rfl (plain id)
    | _ => rfl

end Composite.Wraps

theorem Composite.wraps_ofList {pairs : List (String × Value)} {key : String} {value : Value}
    (distinct : (pairs.map Prod.fst).Nodup) (held : (key, value) ∈ pairs)
    (plain : ∀ pair ∈ pairs, pair.1 = key ∨ (∀ id, pair.2 ≠ .composite id) ∧ pair.2.isNaN = false) :
    (Composite.object (.ofList pairs)).Wraps (.key key) value := by
  have found (other : String) (part : Value) :
      (Assoc.ofList pairs).get? other = some part ↔ (other, part) ∈ pairs := by
    rw [← Assoc.mem_entries, Assoc.entries_ofList distinct]
  refine ⟨(found key value).mpr held, fun {other part} entry => ?_⟩
  cases other with
  | index position => cases entry
  | key other => exact (plain _ ((found other part).mp entry)).imp_left (congrArg _)

/-- The contents of a fresh node. -/
def Build.contents (type : NodeType) (fields : List (String × Value)) : Composite :=
  .object (.ofList (("type", .text type.name) :: fields))

theorem Build.wraps_expressionStatement (test : Value) :
    (contents .expressionStatement [("expression", test)]).Wraps (.key "expression") test := by
  apply Composite.wraps_ofList <;> simp [Value.isNaN]

theorem Build.wraps_unaryExpression (operator : String) (test : Value) (before : Bool) :
    (contents .unaryExpression [("operator", .text operator), ("argument", test),
      ("prefix", .bool before)]).Wraps (.key "argument") test := by
  apply Composite.wraps_ofList <;> simp [Value.isNaN]

/-! ### Mending in a world -/

/-- Whether a test is the negation of another. -/
abbrev Store.isNegated (store : Store) (test : Value) : Bool :=
  store.isOf .unaryExpression test && (store.member test "operator").text? == some "!"

/-- An object whose other branch has become its only one, under a negated test. -/
def Tree.turnedBy (id : CompositeId) (alternate negated : Tree) (members : List (String × Tree)) :
    Tree :=
  .object id (Entries.drop "alternate" (Entries.put "consequent" alternate
    (Entries.put "test" negated members)))

namespace Action

/-- Turns an `if` around, given its other branch and the negation of its test. -/
def turnAround (c : CursorId) (negated alternate : Value) : Action Unit := do
  let _ ← replaceWith (← ofState (·.child c (.key "test"))) negated
  let _ ← replaceWith (← ofState (·.child c (.key "consequent"))) alternate
  remove (← ofState (·.child c (.key "alternate")))

theorem run_build (type : NodeType) (fields : List (String × Value)) (world : World) :
    onStore (Build.node type fields) world =
      .ok (.composite world.store.composites.size) (world.grown (Build.contents type fields)) := rfl

section Equations

theorem mendIf_whole (branch : (world.store.member (world.value c) "consequent").isNull = false) :
    mendIf c world = .ok () world := by
  simp [mendIf, branch]

variable (gone : (world.store.member (world.value c) "consequent").isNull = true)

include gone

theorem mendIf_reduced (alone : (world.store.member (world.value c) "alternate").isNull = true) :
    mendIf c world = (do
      let _ ← replaceWith c (.composite world.store.composites.size))
        (world.grown (Build.contents .expressionStatement
          [("expression", world.store.member (world.value c) "test")])) := by
  simp only [mendIf, run_bind, run_get, gone, alone, if_true, Build.expressionStatement, run_build]

variable (other : (world.store.member (world.value c) "alternate").isNull = false)

include other

theorem mendIf_unwrapped
    (negative : world.store.isNegated (world.store.member (world.value c) "test") = true) :
    mendIf c world = turnAround c
      (world.store.member (world.store.member (world.value c) "test") "argument")
      (world.store.member (world.value c) "alternate") world := by
  simp only [mendIf, turnAround, run_bind, run_get, run_pure, gone, other, negative, if_true,
    Bool.false_eq_true, if_false]

theorem mendIf_wrapped
    (positive : world.store.isNegated (world.store.member (world.value c) "test") = false) :
    mendIf c world = turnAround c (.composite world.store.composites.size)
      (world.store.member (world.value c) "alternate")
      (world.grown (Build.contents .unaryExpression [("operator", .text "!"),
        ("argument", world.store.member (world.value c) "test"), ("prefix", .bool true)])) := by
  simp only [mendIf, turnAround, run_bind, run_get, gone, other, positive, if_true,
    Bool.false_eq_true, if_false, Build.unaryExpression, Build.operatorOnOne, run_build]

end Equations

theorem isQuiet_onStore {α : Type} (run : StateM Store α) : IsQuiet (onStore run) :=
  fun world => World.quiet_withStore world _

theorem isQuiet_turnAround (c : CursorId) (negated alternate : Value) :
    IsQuiet (turnAround c negated alternate) := by
  have asks (key : String) : IsQuiet (ofState (·.child c (.key key))) :=
    isQuiet_ofState fun world => World.quiet_child world c _
  exact (asks "test").bind fun _ => (isQuiet_replaceWith _ _).bind fun _ =>
    (asks "consequent").bind fun _ => (isQuiet_replaceWith _ _).bind fun _ =>
    (asks "alternate").bind fun _ => isQuiet_remove _

theorem isQuiet_mendIf (c : CursorId) : IsQuiet (mendIf c) := by
  refine isQuiet_get.bind fun world => ?_
  dsimp only
  split
  · split
    · exact (isQuiet_onStore _).bind fun _ => (isQuiet_replaceWith _ _).bind fun _ => isQuiet_pure _
    · split
      · exact (isQuiet_pure _).bind fun _ => isQuiet_turnAround _ _ _
      · exact (isQuiet_onStore _).bind fun _ => isQuiet_turnAround _ _ _
  · exact isQuiet_pure _

end Action

namespace World

/-- From one world to another, which is in order, the cursor at the end of a path has stayed, and so
have those at the top. -/
structure Stays (place : List SlotName) (c : CursorId) (before after : World) : Prop where
  orderly : Orderly after
  leads : after.follow? 0 place = some c
  top : place ≠ [] → KeepsTop before after
  root : after.value 0 = before.value 0

theorem Stays.of_grown {after : World} {contents : Composite}
    (stays : Stays place c (world.grown contents) after) : Stays place c world after :=
  ⟨stays.orderly, stays.leads, fun below _ _ counted leads =>
    stays.top below counted ((follow?_grown _ _ _ _).trans leads), stays.root⟩

namespace Orderly

variable (orderly : Orderly world) (here : world.value c = .composite id)
  {members : Assoc String Value}
  (present : world.store.contents? (.composite id) = some (.object members))

include orderly here present

/-- Turning an `if` around, with a negated test that is new or taken from the test. -/
theorem turnAround (leads : world.follow? 0 place = some c) {negated alternate : Value}
    (intact : world.store.Intact negated)
    (drawn : ∀ {path inner}, world.store.part? negated path = some (.composite inner) →
      (∃ rest, world.store.part? (world.value 0) (place ++ .key "test" :: rest) =
      some (.composite inner)) ∨
      ∀ other, world.store.part? (world.value 0) other ≠ some (.composite inner))
    (branch : members.get? "alternate" = some alternate) :
    ∃ after, Action.turnAround c negated alternate world = .ok () after ∧
      Stays place c world after ∧ after.tree = world.tree.graft place (.turnedBy id
        (world.store.tree alternate) (world.store.tree negated)
        (members.entries.map fun member => (member.1, world.store.tree member.2))) := by
  have coherent := orderly.coherent
  have there := coherent.part_of_follow leads here
  have stood {key : String} {part : Value} (member : members.get? key = some part) :
      world.store.inner? (.composite id) (.key key) = some part :=
    (Store.inner?_object present key).trans member
  have partThere {key : String} {part : Value} (member : members.get? key = some part) :
      world.store.part? (world.value 0) (place ++ [.key key]) = some part :=
    Store.part?_concat.mpr ⟨_, there, stood member⟩
  have start : Reworked c members world world :=
    Reworked.refl orderly leads (by rw [here]; exact present)
  obtain ⟨_, first, tested, reworked₁⟩ :=
    start.put orderly leads "test" (Store.NaNFree.self intact.free)
  obtain ⟨_, second, moved, reworked₂⟩ :=
    reworked₁.put orderly leads "consequent" (start.proper branch)
  obtain ⟨after, dropped, reworked⟩ := reworked₂.drop orderly leads "alternate"
  have known {key : String} {part : Value}
      (member : (((members.insert "test" negated).insert "consequent" alternate).erase
        "alternate").get? key = some part) :
      (key = "consequent" ∧ part = alternate) ∨ (key = "test" ∧ part = negated) ∨
        key ≠ "alternate" ∧ key ≠ "consequent" ∧ key ≠ "test" ∧ members.get? key = some part := by
    rw [Assoc.get?_erase, Assoc.get?_insert, Assoc.get?_insert] at member
    split at member
    · cases member
    · rename_i stays
      split at member
      · rename_i same
        exact .inl ⟨same, (Option.some.inj member).symm⟩
      · rename_i apart
        split at member
        · rename_i same
          exact .inr (.inl ⟨same, (Option.some.inj member).symm⟩)
        · rename_i different
          exact .inr (.inr ⟨stays, apart, different, member⟩)
  have finished := reworked.orderly_after orderly leads here [negated, alternate]
    (List.forall_mem_cons.mpr ⟨intact.free,
      List.forall_mem_singleton.mpr (Store.NaNFree.part coherent.free (partThere branch))⟩)
    (List.forall_mem_cons.mpr ⟨intact.whole,
      List.forall_mem_singleton.mpr (orderly.whole.part (partThere branch))⟩)
    (fun key => if key = "consequent" then "alternate" else key) "test"
    (by
      intro key part member
      rcases known member with ⟨_, rfl⟩ | ⟨_, rfl⟩ | ⟨_, _, _, old⟩
      · exact .inl (by simp)
      · exact .inl (by simp)
      · exact .inr (stood old))
    (by
      intro key part member
      rcases known member with ⟨_, rfl⟩ | ⟨_, rfl⟩ | ⟨_, _, _, old⟩
      · exact Store.Unshared.part coherent.unshared (partThere branch)
      · exact intact.unshared
      · exact Store.Unshared.part coherent.unshared (partThere old))
    (by
      intro key part path inner member reached
      have onward {other : String} (from? : members.get? other = some part) :
          world.store.part? (world.value 0) (place ++ .key other :: path) =
            some (.composite inner) := by
        rw [Store.part?_append, there, Option.bind_some, Store.part?_cons (stood from?), reached]
      rcases known member with ⟨rfl, rfl⟩ | ⟨rfl, rfl⟩ | ⟨_, apart, _, old⟩
      · exact .inl ⟨path, onward branch⟩
      · rcases drawn reached with came | nowhere
        · exact .inl came
        · exact .inr ⟨rfl, nowhere⟩
      · rw [if_neg apart]
        exact .inl ⟨path, onward old⟩)
    (by
      intro key other part otherPart member otherMember same
      rcases known member with ⟨rfl, _⟩ | ⟨rfl, _⟩ | ⟨stays, apart, different, _⟩ <;>
        rcases known otherMember with ⟨rfl, _⟩ | ⟨rfl, _⟩ | ⟨stays', apart', different', _⟩ <;>
        simp_all)
  obtain ⟨orderlyAfter, sameRoot, tree⟩ := finished
  refine ⟨after, ?_, ⟨orderlyAfter, reworked.follow orderly leads, reworked.keepsTop orderly leads,
    sameRoot⟩, ?_⟩
  · simp only [Action.turnAround, Action.run_bind, Action.run_ofState, tested, moved, dropped]
  · rw [tree, Tree.turnedBy, Entries.put_map, Entries.put_map, Entries.drop_map]
    rfl

omit present in
/-- An `if` without branches gives way to a statement of its test. -/
theorem mendIf_reduced {front : List SlotName} {slot : SlotName}
    (leads : world.follow? 0 (front ++ [slot]) = some c)
    (gone : (world.store.member (world.value c) "consequent").isNull = true)
    (alone : (world.store.member (world.value c) "alternate").isNull = true) :
    ∃ after, Action.mendIf c world = .ok () after ∧ Stays (front ++ [slot]) c world after ∧
      after.tree = world.tree.exchange front slot
        [(world.store.tree (world.value c)).testStatement world.store.composites.size] := by
  have coherent := orderly.coherent
  have there := coherent.part_of_follow leads here
  have unshared : world.store.Unshared (world.value c) := coherent.unshared_at leads here
  rw [Action.mendIf_reduced gone alone]
  have member := Store.member_tree unshared "test"
  rw [here] at member ⊢
  generalize tested : world.store.member (.composite id) "test" = test at member ⊢
  have intact : world.store.Intact test := tested ▸ orderly.intact.member there _
  have wraps := Build.wraps_expressionStatement test
  have grown := orderly.grown (Build.contents .expressionStatement [("expression", test)]) nofun
  have leadsStill : (world.grown (Build.contents .expressionStatement
      [("expression", test)])).follow? 0 (front ++ [slot]) = some c :=
    (follow?_grown _ _ _ _).trans leads
  have filled := grown.coherent.part_of_follow leadsStill here
  obtain ⟨parent, contents, standing, takes, _⟩ := grown.coherent.standing leadsStill
    (by rw [filled]; exact Option.some_ne_none _) [.composite world.store.composites.size]
    fun _ _ => Nat.le_refl 1
  have admits : (world.store.grown (Build.contents .expressionStatement
      [("expression", test)])).Admits (world.value 0) (front ++ [slot])
      [.composite world.store.composites.size] := by
    constructor
    · intro value path other inner member reached elsewhere
      cases List.mem_singleton.mp member
      rw [orderly.whole.part?_grown] at elsewhere
      rcases wraps.composite intact reached with ⟨_, top⟩ | ⟨rest, _, stood⟩
      · exact absurd top (orderly.whole.ne_size elsewhere)
      · have came := Store.part?_member there "test" (tested ▸ stood)
        rw [coherent.unshared elsewhere came]
        exact List.prefix_append _ _
    · intro position place value other path otherPath inner first second reached otherReached
      obtain ⟨rfl, rfl⟩ := Store.of_getElem?_singleton first
      obtain ⟨rfl, rfl⟩ := Store.of_getElem?_singleton second
      exact ⟨rfl, (wraps.intact_new intact).unshared reached otherReached⟩
  obtain ⟨cs, after, result, orderlyAfter, exchanges, keeps, stays⟩ :=
    grown.replace standing takes admits
    (List.forall_mem_singleton.mpr (wraps.intact_new intact).free)
    (List.forall_mem_singleton.mpr (wraps.intact_new intact).whole)
    fun array => grown.fits (array ▸ standing.present)
  refine ⟨after, ?_, Stays.of_grown ⟨orderlyAfter, stays (List.cons_ne_nil _ _), fun _ => keeps,
    exchanges.root⟩, ?_⟩
  · rw [Action.run_bind, Action.replaceWith_eq, Action.run_map, result]
    rfl
  · rw [exchanges.tree, orderly.tree_grown]
    have tree := wraps.tree intact
    refine congrArg (world.tree.exchange front slot) (congrArg (fun tree => [tree]) ?_)
    rw [Tree.testStatement, member]
    exact tree

/-- An `if` with another branch is turned around. -/
theorem mendIf_turned (leads : world.follow? 0 place = some c)
    (gone : (world.store.member (world.value c) "consequent").isNull = true)
    (other : (world.store.member (world.value c) "alternate").isNull = false) :
    ∃ after, Action.mendIf c world = .ok () after ∧ Stays place c world after ∧
      after.tree = world.tree.graft place
        ((world.store.tree (world.value c)).turned world.store.composites.size) := by
  have coherent := orderly.coherent
  have there := coherent.part_of_follow leads here
  have unshared : world.store.Unshared (world.value c) := coherent.unshared_at leads here
  have branch : members.get? "alternate" =
      some (world.store.member (world.value c) "alternate") := by
    rw [here, Store.member_eq_inner?, Store.inner?_object present] at other ⊢
    cases entry : members.get? "alternate" with
    | none =>
      rw [entry] at other
      cases other
    | some value => rfl
  have intact := orderly.intact.member there "test"
  have turned : (world.store.tree (world.value c)).turned world.store.composites.size =
      .turnedBy id (world.store.tree (world.store.member (world.value c) "alternate"))
        (Tree.negation world.store.composites.size
          (world.store.tree (world.store.member (world.value c) "test")))
        (members.entries.map fun member => (member.1, world.store.tree member.2)) := by
    rw [← Store.member_tree unshared, ← Store.member_tree unshared]
    rw [here] at unshared ⊢
    rw [Store.tree_of_some unshared present]
    rfl
  rw [← here] at intact
  rw [turned, Tree.negation, Store.isOf_tree intact.unshared, Store.member_tree intact.unshared,
    Store.text?_tree]
  rw [← Store.isNegated]
  cases negative : world.store.isNegated (world.store.member (world.value c) "test") with
  | true =>
    -- The test is an object, so that it stands under its key, and so does its argument.
    have stands : world.store.part? (world.value 0) (place ++ [.key "test"]) =
        some (world.store.member (world.value c) "test") := by
      rcases Store.member_cases there "test" with stands | missing
      · rw [here]
        exact stands
      · rw [here, missing] at negative
        cases negative
    rw [Action.mendIf_unwrapped gone other negative, if_pos rfl,
      Store.member_tree intact.unshared]
    refine orderly.turnAround here present leads (orderly.intact.member stands "argument") ?_ branch
    intro path inner reached
    have came := Store.part?_member stands "argument" reached
    rw [List.append_assoc] at came
    exact .inl ⟨_, came⟩
  | false =>
    rw [Action.mendIf_wrapped gone other negative, if_neg Bool.false_ne_true]
    generalize tested : world.store.member (world.value c) "test" = test at intact ⊢
    have wraps := Build.wraps_unaryExpression "!" test true
    generalize built : Build.contents .unaryExpression
      [("operator", .text "!"), ("argument", test), ("prefix", .bool true)] = contents at wraps ⊢
    have grown := orderly.grown contents (by subst built; nofun)
    have same {key : String} {part : Value} (member : members.get? key = some part) :
        (world.grown contents).store.tree part = world.store.tree part := by
      have stands := Store.part?_concat.mpr
        ⟨_, there, (Store.inner?_object present key).trans member⟩
      have known := orderly.intact.part stands
      exact Store.Spares.tree (known.whole.contents?_grown contents) known.unshared
    obtain ⟨after, result, stays, tree⟩ := grown.turnAround here
      ((orderly.whole.contents?_grown contents there).trans present)
      ((follow?_grown _ _ _ _).trans leads) (wraps.intact_new intact)
      (by
        intro path inner reached
        rcases wraps.composite intact reached with ⟨_, top⟩ | ⟨rest, _, stood⟩
        · refine .inr fun elsewhere stands => ?_
          rw [orderly.part?_grown] at stands
          exact orderly.whole.ne_size stands top
        · rw [← tested, here] at stood
          refine .inl ⟨rest, ?_⟩
          rw [orderly.part?_grown]
          exact Store.part?_member there "test" stood)
      branch
    refine ⟨after, result, stays.of_grown, ?_⟩
    rw [tree, orderly.tree_grown]
    have wrapped : (world.grown contents).store.tree (.composite world.store.composites.size) = _ :=
      wraps.tree intact
    have entries : (members.entries.map fun member =>
        (member.1, (world.grown contents).store.tree member.2)) =
        members.entries.map fun member => (member.1, world.store.tree member.2) := by
      refine List.map_congr_left fun member inside => ?_
      rw [same (Assoc.mem_entries.mp inside)]
    rw [same branch, entries, wrapped, ← built]
    rfl

/-- Mending an `if`, as the tree shows it. An `if` without branches must not be the root. -/
theorem mendIf (leads : world.follow? 0 place = some c)
    (below : (world.store.tree (world.value c)).isReducible = true → place ≠ []) :
    ∃ after, Action.mendIf c world = .ok () after ∧ Stays place c world after ∧
      after.tree = Tree.mendIf world.store.composites.size place
        (world.store.tree (world.value c)) world.tree := by
  have unshared : world.store.Unshared (world.value c) := orderly.coherent.unshared_at leads here
  rw [Tree.isReducible, Store.member_tree unshared, Store.member_tree unshared, Store.isNull_tree,
    Store.isNull_tree] at below
  rw [Tree.mendIf, Store.member_tree unshared, Store.member_tree unshared, Store.isNull_tree,
    Store.isNull_tree]
  cases gone : (world.store.member (world.value c) "consequent").isNull with
  | false =>
    refine ⟨world, Action.mendIf_whole gone, ⟨orderly, leads, fun _ _ _ _ toD => ?_, rfl⟩, rfl⟩
    exact ⟨orderly.inside toD, fun _ => toD⟩
  | true =>
    cases alone : (world.store.member (world.value c) "alternate").isNull with
    | true =>
      rw [gone, alone] at below
      rcases List.eq_nil_or_concat place with rfl | ⟨front, slot, rfl⟩
      · exact absurd rfl (below rfl)
      · rw [List.concat_eq_append] at leads ⊢
        rw [if_pos rfl, if_pos rfl, Tree.replaceAt_concat]
        exact orderly.mendIf_reduced here leads gone alone
    | false => exact orderly.mendIf_turned here present leads gone alone

omit here present in
/-- There is no slot for the test of an `if` without branches that is the root. -/
theorem mendIf_refused (root : c = 0)
    (reducible : (world.store.tree (world.value c)).isReducible = true) :
    ∃ after, Action.mendIf c world = .error (.error .noParent) after ∧ Orderly after ∧
      after.value 0 = world.value 0 ∧ after.tree = world.tree := by
  subst root
  have unshared : world.store.Unshared (world.value 0) := orderly.coherent.unshared
  rw [Tree.isReducible, Store.member_tree unshared, Store.member_tree unshared, Store.isNull_tree,
    Store.isNull_tree, Bool.and_eq_true] at reducible
  refine ⟨world.grown (Build.contents .expressionStatement
    [("expression", world.store.member (world.value 0) "test")]), ?_, orderly.grown _ nofun, rfl,
    orderly.tree_grown _⟩
  have orphan : (world.grown (Build.contents .expressionStatement
      [("expression", world.store.member (world.value 0) "test")])).parent? 0 = none := by
    have absent : (world.cursor 0).parent? = none := orderly.coherent.top
    rw [parent?, show World.cursor (world.grown _) 0 = world.cursor 0 from rfl, absent]
  rw [Action.mendIf_reduced reducible.1 reducible.2, Action.run_bind, Action.replaceWith_eq,
    Action.run_map, Action.replace_of_none orphan]

end Orderly

end World

end CodeTree
