/-
The report on parentheses. While a document is visited, defaults are filled in, and questions about
parentheses are asked in between. What is filled in holds nothing, is no operator and no value of a
literal, and puts no operator behind its operand; so whoever is asked about a place gets the answer
that the store gave before the visit began. The report is thus the list of those expressions of the
document that need parentheses, in document order. What is wrapped in an expression is wrapped
elsewhere too.
-/

import CodeTree.Proofs.LeftEdges
import CodeTree.Proofs.ParensFaults

namespace CodeTree

variable {path : List SlotName} {id : CompositeId}

variable {other world : World} {after before store : Store} {root value : Value} {c d : CursorId}

/-! ### Joined names -/

namespace SlotName

theorem toString_injective {one two : Nat} (same : toString one = toString two) : one = two := by
  have digits := congrArg String.toList same
  simp only [Nat.toString_eq_ofList_toDigits, String.toList_ofList] at digits
  rw [← @Nat.ofDigitChars_toDigits 10 one (by decide) (by decide), digits,
    Nat.ofDigitChars_toDigits (by decide) (by decide)]

/-- Texts that are not empty and have no points are what is between the points. -/
theorem splitOn_joined {names : List SlotName}
    (plain : ∀ name ∈ names, name.text ≠ "" ∧ '.' ∉ name.text.toList) :
    (List.splitOn '.' (".".intercalate (names.map text)).toList).filter (· ≠ []) =
      (names.map text).map String.toList := by
  cases names with
  | nil => rfl
  | cons name rest =>
    rw [String.toList_intercalate, show ".".toList = ['.'] from rfl,
      List.splitOn_intercalate '.' ?_ (by simp), List.filter_eq_self]
    · simp only [List.map_map, List.forall_mem_map]
      exact fun name inside => by simpa using (plain name inside).1
    · simp only [List.map_map, List.forall_mem_map]
      exact fun name inside => (plain name inside).2

end SlotName

namespace Store

/-! ### Calls in a filled store -/

theorem Bare.containsCallTo (bare : store.Bare value) (depth : Nat) :
    store.containsCallTo depth value = false := by
  have noCall := bare.isOf .callExpression
  cases depth with
  | zero => exact noCall
  | succ depth =>
    rw [Store.containsCallTo, noCall, Bool.false_or]
    rcases bare with plain | empty
    · rw [contents?_of_plain plain]
    · rw [empty]
      rfl

theorem run_fieldValue (store : Store) (value : Value) (name : String) :
    (fieldValue value name).run store =
      if store.hasMember value name then (store.member value name, store)
      else
        match store.fieldDefault? value name with
        | some default => default.toValue.run store
        | none => (.null, store) := by
  unfold fieldValue
  cases has : store.hasMember value name <;> cases found : store.fieldDefault? value name <;>
    simp [has, found] <;> rfl

/-- A default holds no call, no more than the null that a missing field reads as. -/
theorem containsCallTo_field (store : Store) (depth : Nat) (value : Value) (name : String) :
    ((fieldValue value name).run store).2.containsCallTo depth ((fieldValue value name).run store).1 =
      store.containsCallTo depth (store.member value name) := by
  rw [run_fieldValue]
  split
  · rfl
  · rename_i lacks
    have missing : store.member value name = .null := by
      rw [member]
      cases held : store.members? value with
      | none => rfl
      | some members =>
        rw [hasMember, held, Option.any_some, Assoc.contains, Option.not_isSome_iff_eq_none] at lacks
        rw [Option.bind_some, lacks]
        rfl
    rw [missing, (bare_null store).containsCallTo]
    refine Bare.containsCallTo ?_ depth
    cases store.fieldDefault? value name with
    | none => exact bare_null store
    | some default =>
      dsimp only
      rcases default.toValue_cases store with ⟨value, made, plain, _⟩ | made
      · rw [made]
        exact .inl plain
      · rw [made]
        exact .inr (contents?_grown_self _ _)

theorem containsCallTo_eq (store : Store) (depth : Nat) (value : Value) :
    store.containsCallTo (depth + 1) value =
      (store.isOf .callExpression value ||
        match store.contents? value with
        | some (.array items) => items.any (store.containsCallTo depth)
        | some (.object _) => store.isNode value && (store.type? value).any fun type =>
          type.fieldNames.any fun name => store.containsCallTo depth (store.member value name)
        | none => false) := by
  simp only [← containsCallTo_field]
  rfl

/-- Of a value that is reached, the texts of the names tell the names. -/
theorem path_eq_of_text {other : List SlotName} {part target : Value}
    (there : store.part? value path = some part) (thither : store.part? value other = some target)
    (same : path.map SlotName.text = other.map SlotName.text) : path = other := by
  induction path generalizing value other with
  | nil => exact (List.map_eq_nil_iff.mp same.symm).symm
  | cons name rest ih =>
    cases other with
    | nil => cases same
    | cons step beyond =>
      obtain ⟨spelled, onward⟩ := List.cons.inj same
      obtain ⟨next, entry, there⟩ := Option.bind_eq_some_iff.mp there
      obtain ⟨following, turn, thither⟩ := Option.bind_eq_some_iff.mp thither
      obtain rfl : name = step := by
        cases present : store.contents? value with
        | none => simp [inner?, present] at entry
        | some contents =>
          rw [inner?_of_contents present] at entry turn
          cases contents <;> cases name <;> cases step <;>
            first
            | cases entry
            | cases turn
            | exact congrArg _ (SlotName.toString_injective spelled)
            | exact congrArg _ spelled
      rw [entry] at turn
      cases turn
      rw [ih there thither onward]

theorem any_congr_of_mem {α : Type} {items : List α} {test other : α → Bool}
    (same : ∀ item ∈ items, other item = test item) : items.any other = items.any test := by
  rw [Bool.eq_iff_iff, List.any_eq_true, List.any_eq_true]
  exact exists_congr fun item => and_congr_right fun member => by rw [same item member]

namespace Filled

variable (filled : before.Filled after)

include filled

/-- What stands under a key has stood there, or has come and holds nothing. -/
theorem member_cases (whole : before.Whole value) (key : String) :
    (∃ part, before.inner? value (.key key) = some part ∧ before.member value key = part ∧
        after.member value key = part) ∨
      before.member value key = .null ∧ after.Bare (after.member value key) := by
  rw [member_eq_inner?, member_eq_inner?]
  cases stood : before.inner? value (.key key) with
  | some part => exact .inl ⟨part, rfl, rfl, by rw [filled.inner?_of_before stood]; rfl⟩
  | none =>
    refine .inr ⟨rfl, ?_⟩
    cases entry : after.inner? value (.key key) with
    | none => exact bare_null after
    | some part =>
      rcases filled.inner?_of_after (known_of_whole whole) entry with old | ⟨bare, _⟩
      · rw [stood] at old
        cases old
      · exact bare

/-- Calls are found in a filled value where they were found before. How deep they are looked for
does not matter beyond the depth of the value. -/
theorem containsCallTo (whole : before.Whole value) {depth deeper : Nat}
    (within : before.Within value depth) (le : depth ≤ deeper) :
    after.containsCallTo deeper value = before.containsCallTo depth value := by
  induction depth generalizing value deeper with
  | zero =>
    have plain (id : CompositeId) : value ≠ .composite id := by
      rintro rfl
      exact whole [] id rfl within.plain
    rw [Bare.containsCallTo (.inl plain), Bare.containsCallTo (.inl plain)]
  | succ depth ih =>
    obtain ⟨deeper, rfl⟩ : ∃ fewer, deeper = fewer + 1 := ⟨deeper - 1, by omega⟩
    have known := known_of_whole whole
    have next {name : SlotName} {part : Value} (entry : before.inner? value name = some part) :
        after.containsCallTo deeper part = before.containsCallTo depth part :=
      ih (whole.part ((part?_cons entry []).trans rfl)) (within.next entry)
        (Nat.le_of_succ_le_succ le)
    rw [containsCallTo_eq, containsCallTo_eq, filled.isOf known .callExpression]
    refine congrArg (_ || ·) ?_
    cases present : before.contents? value with
    | none =>
      cases value with
      | composite id => exact absurd present (known id rfl)
      | _ => rfl
    | some contents =>
      cases contents with
      | array items =>
        rw [filled.array value items present]
        refine any_congr_of_mem fun item member => ?_
        obtain ⟨_, entry⟩ := exists_name_of_mem present member
        exact next entry
      | object members =>
        obtain ⟨more, _, presentMore, _⟩ := filled.object value members present
        rw [presentMore]
        dsimp only
        rw [isNode, isNode, filled.isOf known .node, filled.type? known]
        refine congrArg (_ && ·) (congrArg (Option.any · _) (funext fun type => ?_))
        refine any_congr_of_mem fun name _ => ?_
        rcases filled.member_cases whole name with ⟨part, entry, stood, stands⟩ | ⟨null, bare⟩
        · rw [stood, stands]
          exact next entry
        · rw [bare.containsCallTo, null, (bare_null before).containsCallTo]

theorem depthBound_le : before.depthBound ≤ after.depthBound := by
  rw [Store.depthBound, Store.depthBound, Nat.add_le_add_iff_right]
  by_contra more
  have last : before.contents? (.composite after.composites.size) ≠ none := by
    rw [contents?, Array.getElem?_eq_getElem (Nat.lt_of_not_le more)]
    exact Option.some_ne_none _
  exact filled.contents?_ne_none last (contents?_size after)

theorem containsCall (unshared : before.Unshared value) (whole : before.Whole value) :
    after.containsCall value = before.containsCall value :=
  filled.containsCallTo whole unshared.within filled.depthBound_le

/-! ### Sites in a filled store -/

/-- What has come into a store is nothing that has a type. -/
theorem same_member {outer node : Value} (whole : before.Whole outer)
    (composite : node = .composite id) {type : NodeType} (typed : after.type? node = some type)
    (key : String) : (after.member outer key).same node = (before.member outer key).same node := by
  rcases filled.member_cases whole key with ⟨part, _, stood, stands⟩ | ⟨null, bare⟩
  · rw [stood, stands]
  · rw [null]
    subst composite
    cases same : (after.member outer key).same (.composite id) with
    | false => rfl
    | true =>
      rw [Value.same_composite_right] at same
      rw [← same, bare.type?] at typed
      cases typed

section Site

variable (whole : before.Whole root)

include whole

theorem siteAt? (path : List SlotName) : after.siteAt? root path = before.siteAt? root path := by
  unfold Store.siteAt?
  rw [filled.around? whole]
  cases there : before.part? root path with
  | some part =>
    have expression : after.isExpression part = before.isExpression part :=
      filled.isOf (known_of_whole (whole.part there)) .expression
    rw [filled.part?_of_before there]
    simp only [Option.bind_eq_bind, Option.bind_some]
    rw [expression, filled.type?_of_part whole there]
    cases around : before.around? root path with
    | none => rfl
    | some outer =>
      obtain ⟨_, outside, _⟩ := around?_eq_some around
      simp only [Option.bind_some, filled.type?_of_part whole outside]
  | none =>
    cases thereAfter : after.part? root path with
    | none => rfl
    | some part =>
      rcases filled.part?_of_after whole thereAfter with old | ⟨bare, _⟩
      · rw [there] at old
        cases old
      · simp [isExpression, bare.isOf]

end Site

end Filled

theorem siteAt?_eq_some {site : Site} (found : store.siteAt? root path = some site) :
    store.part? root path = some site.node ∧ store.type? site.node = some site.type ∧
      ∃ front, store.part? root front = some site.parent := by
  obtain ⟨node, there, found⟩ := Option.bind_eq_some_iff.mp found
  obtain ⟨_, _, found⟩ := Option.bind_eq_some_iff.mp found
  obtain ⟨type, typed, found⟩ := Option.bind_eq_some_iff.mp found
  obtain ⟨_, _, found⟩ := Option.bind_eq_some_iff.mp found
  obtain ⟨⟨front, parent⟩, around, found⟩ := Option.bind_eq_some_iff.mp found
  obtain ⟨parentType, _, found⟩ := Option.bind_eq_some_iff.mp found
  cases found
  exact ⟨there, typed, front, (around?_eq_some around).2.1⟩

/-- What is filled in decides nothing about parentheses. -/
theorem Filled.parensAt? (filled : before.Filled after) (unshared : before.Unshared root)
    (whole : before.Whole root)
    (plain : ∀ value, ∀ key ∈ NodeType.plainKeys, after.member value key = before.member value key)
    (path : List SlotName) : after.parensAt? root path = before.parensAt? root path := by
  rw [Store.parensAt?, Store.parensAt?, filled.siteAt? whole]
  cases found : before.siteAt? root path with
  | none => rfl
  | some site =>
    obtain ⟨there, typed, front, outside⟩ := siteAt?_eq_some found
    obtain ⟨id, _, composite, _⟩ := exists_members typed
    have typedAfter := (filled.type?_of_part whole there).trans typed
    have fills (field : String) : after.fills site field = before.fills site field := by
      rw [Store.fills, Store.fills, filled.same_member (whole.part outside) composite typedAfter]
    have yields : after.yieldsTo site = before.yieldsTo site := by
      simp only [yieldsTo, operatorPrecedence?, plain _ "operator" (by decide)]
    simp only [parensBySite?, fills, yields, plain _ "value" (by decide),
      filled.containsCall (unshared.part there) (whole.part there)]

namespace Filled

variable (filled : before.Filled after) (unshared : before.Unshared root) (whole : before.Whole root)
  (behind : ∀ value, after.isPostfix value = before.isPostfix value)
  (there : before.part? root path = some (.composite id))

include filled unshared whole behind there

/-- What is filled in starts no statement. -/
theorem startsStatement (node : before.isNode (.composite id) = true) :
    after.startsStatement root path = before.startsStatement root path := by
  -- The nodes around come nearer to the root.
  induction length : path.length using Nat.strongRecOn generalizing path id with
  | ind _ ih =>
    have around := filled.around? whole path
    cases outside : before.around? root path with
    | none => rw [startsStatement_of_none (around.trans outside), startsStatement_of_none outside]
    | some outer =>
      obtain ⟨front, outer⟩ := outer
      obtain ⟨_, above, outerNode⟩ := around?_eq_some outside
      obtain ⟨outerId, rfl⟩ := exists_id_of_isNode outerNode
      have known := known_of_whole (whole.part above)
      have thereAfter := filled.part?_of_before there
      have aboveAfter := filled.part?_of_before above
      have apart : before.NodesApart root := unshared.nodesApart
      have apartAfter : after.NodesApart root := filled.nodesApart whole unshared
      have nodeAfter : after.isNode (.composite id) = true :=
        (filled.isOf (known_of_whole (whole.part there)) .node).trans node
      rw [startsStatement_of_some (around.trans outside), startsStatement_of_some outside, there,
        thereAfter]
      simp only [Option.any_some, apart.same_item node there above,
        apart.same_member node there above, apartAfter.same_item nodeAfter thereAfter aboveAfter,
        apartAfter.same_member nodeAfter thereAfter aboveAfter, filled.isOf known,
        leads_congr (filled.type? known) (behind _),
        ih front.length (length ▸ length_of_around? outside) above outerNode rfl]

/-- Parentheses are needed where they were before defaults were filled in. -/
theorem parens
    (plain : ∀ value, ∀ key ∈ NodeType.plainKeys, after.member value key = before.member value key)
    (inExpression : Bool) :
    after.parens inExpression root path = before.parens inExpression root path := by
  have known := known_of_whole (whole.part there)
  have mistakable : after.isMistakable (.composite id) = before.isMistakable (.composite id) := by
    rw [isMistakable, filled.isOf known, filled.isOf known, isMistakable]
  rw [Store.parens, Store.parens, filled.parensAt? unshared whole plain, there,
    filled.part?_of_before there, Option.any_some, Option.any_some, mistakable]
  cases before.parensAt? root path with
  | some answer => rfl
  | none =>
    cases harms : before.isMistakable (.composite id) with
    | false => rw [Bool.not_false, Bool.or_true]; rfl
    | true =>
      rw [filled.startsStatement unshared whole behind there (isNode_of_isMistakable harms)]

end Filled

end Store

/-- How a question ends, whatever is remembered then. -/
def Action.verdict {α : Type} : EStateM.Result (Halt EditError) World α → Except (Halt EditError) α
  | .ok answer _ => .ok answer
  | .error halt _ => .error halt

theorem Action.verdict_concluding (after : World) (decided : Except Fault Bool) :
    verdict (concluding after decided) = decided.mapError .fault := by
  cases decided <;> rfl

open World

namespace ParensReport

/-! ### What the report is to list -/

/-- What is answered at the end of a path from a root of which nothing has been asked. -/
def asked (inExpression : Bool) (store : Store) (root : Value) (path : List SlotName) :
    Except (Halt EditError) Bool :=
  Action.verdict (Action.needsParens ((rooted store root).descend 0 path).1 inExpression
    ((rooted store root).descend 0 path).2)

/-- A position that holds an expression and is answered that parentheses are needed. -/
def isWrapped (inExpression : Bool) (store : Store) (root : Value) (position : Position) : Bool :=
  position.tree.isOf .expression &&
    match asked inExpression store root position.path with
    | .ok answer => answer
    | .error _ => false

/-- The names down to a position, joined by points. -/
def joined (position : Position) : String := ".".intercalate (position.path.map SlotName.text)

/-- The name of the type of what stands at a position. -/
def typeName (position : Position) : String := (position.tree.member "type").text?.getD ""

/-- The positions that need parentheses, in order. -/
def wrapped (inExpression : Bool) (store : Store) (root : Value) : List Position :=
  (listing store root).filter (isWrapped inExpression store root)

def entry (position : Position) : ParensEntry := ⟨joined position, typeName position⟩

/-- The report notes the positions that need parentheses. -/
def ledger (inExpression : Bool) (store : Store) (root : Value) :
    Journal Unit (List ParensEntry) (List ParensEntry) where
  view entries := entries
  opening _ entries := entries
  note _ position entries :=
    if isWrapped inExpression store root position then entries ++ [entry position] else entries

theorem handler?_eq_none {tree : Tree} (absent : policy.handler? tree = none) :
    tree.isOf .expression = false := by
  rw [show policy = .single .expression from rfl, Policy.handler?_single] at absent
  exact Bool.eq_false_iff.mpr fun expression => by simp [expression] at absent

/-- Where a walk can go on, what it makes of the ledger is what it is to list. -/
theorem record_ledger (inExpression : Bool) (store : Store) (root : Value)
    {positions : List Position} (known : positions.all Position.isKnown = true)
    (entries : List ParensEntry) :
    (ledger inExpression store root).record policy positions entries =
      entries ++ (positions.filter (isWrapped inExpression store root)).map entry := by
  induction positions generalizing entries with
  | nil => exact (List.append_nil entries).symm
  | cons position rest ih =>
    rw [List.all_cons, Bool.and_eq_true] at known
    obtain ⟨path, tree⟩ := position
    cases found : policy.handler? tree with
    | some named =>
      rw [Journal.record_cons_some _ _ found, ih known.2, List.filter_cons, ledger]
      dsimp only
      split
      · rw [List.append_assoc, List.map_cons, List.singleton_append]
      · rfl
    | none =>
      have unwrapped : isWrapped inExpression store root ⟨path, tree⟩ = false := by
        rw [isWrapped, handler?_eq_none found, Bool.false_and]
      rw [Journal.record_cons_none _ _ known.1 found, ih known.2,
        List.filter_cons_of_neg (Bool.eq_false_iff.mp unwrapped)]

section Fresh

/-- A root of which nothing has been asked answers as the store decides. -/
theorem asked_eq (there : store.part? root path = some (.composite id)) (inExpression : Bool) :
    asked inExpression store root path = (store.parens inExpression root path).mapError .fault := by
  obtain ⟨sound, fresh, same, placed⟩ := descend_rooted there rfl
  obtain ⟨after, _, result⟩ :=
    Action.needsParens_eq sound fresh (placed.grounded sound) trivial placed inExpression
  rw [asked, result, same, Action.verdict_concluding]

variable (unshared : store.Unshared root) (inExpression : Bool)

include unshared

/-- During the report the answers are those of the store as it was. -/
theorem notes (whole : store.Whole root) : Notes (ledger inExpression store root) inExpression store root where
  opening _ _ := rfl
  note {session path c answer after} sound lasts rises unsharedHere outcome glances := by
    have isOf : (session.treeAt c).isOf .expression =
        session.world.store.isExpression (session.world.value c) := Store.isOf_tree unsharedHere _
    show (if answer then session.state ++ [ParensEntry.ofCursor after c] else session.state) =
      if isWrapped inExpression store root ⟨path, session.treeAt c⟩ then
        session.state ++ [entry ⟨path, session.treeAt c⟩]
      else session.state
    rw [isWrapped, isOf]
    cases expression : session.world.store.isExpression (session.world.value c) with
    | false =>
      have nowhere : session.world.site? c = none := by simp [site?, expression]
      simp only [Action.needsParens, Action.run_bind, Action.run_get, nowhere,
        Action.run_pure] at outcome
      cases outcome
      rfl
    | true =>
      obtain ⟨own, typed, derives⟩ := (Option.any_eq_true _ _).mp expression
      obtain ⟨id, _, composite, _⟩ := Store.exists_members typed
      have placed := rises.placed lasts.seated composite
      have node : session.world.store.isNode (session.world.value c) = true :=
        (Option.any_eq_true _ _).mpr ⟨own, typed, NodeType.isSubtypeOf_node derives (by decide)⟩
      have there := lasts.filled.part?_of_node whole node placed.part
      rw [composite] at there
      obtain ⟨_, _, same⟩ := Action.needsParens_eq sound lasts.seated.fresh
        (rises.grounded sound) trivial placed inExpression
      replace same := congrArg Action.verdict (outcome.symm.trans same)
      rw [Action.verdict, Action.verdict_concluding, lasts.filled.parens unshared whole lasts.behind
        there lasts.plain, ← asked_eq there] at same
      have entries : ParensEntry.ofCursor after c = entry ⟨path, session.treeAt c⟩ := by
        have keeps := (glances.watches session.state).keeps
        have risesAfter := rises.keeps sound keeps fun d member => glances.held.symm ▸ member
        rw [ParensEntry.ofCursor, SlotName.dotted, entry, joined, typeName,
          risesAfter.names_eq (glances.sound sound), Store.member_tree unsharedHere,
          Store.text?_tree, Store.typeName?, glances.store, glances.value]
      rw [← same, entries]
      rfl

omit unshared in
/-- What is wrapped in an expression is wrapped elsewhere too. -/
theorem asked_outside (there : store.part? root path = some (.composite id))
    (inside : asked true store root path = .ok true) : asked false store root path = .ok true := by
  rw [asked_eq there, Store.parens] at inside ⊢
  cases decided : store.parensAt? root path with
  | some answer =>
    rw [decided] at inside
    exact inside
  | none =>
    rw [decided] at inside
    cases inside

/-- The listed positions that hold expressions are those of composites. -/
theorem part?_of_mem_listing {position : Position} (listed : position ∈ listing store root)
    (expression : position.tree.type? ≠ none) :
    ∃ id, store.part? root position.path = some (.composite id) ∧
      store.tree (.composite id) = position.tree := by
  obtain ⟨rest, leads, shows⟩ := policy.at?_of_mem_positions listed
  rw [List.nil_append] at leads
  rw [Store.at?_tree unshared] at shows
  obtain ⟨part, there, same⟩ := Option.map_eq_some_iff.mp shows
  rw [← same, Store.type?_tree (unshared.part there)] at expression
  obtain ⟨own, typed⟩ := Option.ne_none_iff_exists'.mp expression
  obtain ⟨id, _, rfl, _⟩ := Store.exists_members typed
  exact ⟨id, leads ▸ there, same⟩

theorem isWrapped_outside {position : Position} (listed : position ∈ listing store root)
    (inside : isWrapped true store root position = true) :
    isWrapped false store root position = true := by
  rw [isWrapped, Bool.and_eq_true] at inside ⊢
  refine ⟨inside.1, ?_⟩
  obtain ⟨id, there, _⟩ := part?_of_mem_listing unshared listed (Tree.type?_ne_none inside.1)
  have answered : asked true store root position.path = .ok true := by
    cases answer : asked true store root position.path with
    | ok answer =>
      rw [answer] at inside
      exact congrArg Except.ok inside.2
    | error halt =>
      rw [answer] at inside
      cases inside.2
  rw [asked_outside there answered]

theorem sublist_wrapped : (wrapped true store root).Sublist (wrapped false store root) := by
  have fewer : (listing store root).filter (isWrapped true store root) =
      ((listing store root).filter (isWrapped false store root)).filter
        (isWrapped true store root) := by
    rw [List.filter_filter]
    refine List.filter_congr fun position listed => ?_
    cases inside : isWrapped true store root position with
    | false => rfl
    | true => rw [isWrapped_outside unshared listed inside, Bool.true_and]
  rw [wrapped, fewer]
  exact List.filter_sublist

theorem nodup_wrapped : ((wrapped inExpression store root).map Position.path).Nodup :=
  (policy.nodup_positions (Store.keyed_tree unshared) []).sublist (List.filter_sublist.map _)

/-- Where no name is empty or has a point, no two positions go by the same joined names. -/
theorem nodup_joined (plain : ∀ position ∈ wrapped inExpression store root,
      ∀ name ∈ position.path, name.text ≠ "" ∧ '.' ∉ name.text.toList) :
    ((wrapped inExpression store root).map joined).Nodup := by
  have distinct := nodup_wrapped unshared inExpression
  have leads {position : Position} (member : position ∈ wrapped inExpression store root) :
      ∃ part, store.part? root position.path = some part := by
    obtain ⟨listed, needs⟩ := List.mem_filter.mp member
    rw [isWrapped, Bool.and_eq_true] at needs
    obtain ⟨id, there, _⟩ := part?_of_mem_listing unshared listed (Tree.type?_ne_none needs.1)
    exact ⟨_, there⟩
  rw [List.Nodup, List.pairwise_map] at distinct ⊢
  refine distinct.imp_of_mem fun {one two} member other different same => different ?_
  obtain ⟨_, toOne⟩ := leads member
  obtain ⟨_, toTwo⟩ := leads other
  have pieces := SlotName.splitOn_joined (plain one member)
  rw [← joined, same, joined, SlotName.splitOn_joined (plain two other)] at pieces
  exact Store.path_eq_of_text toOne toTwo
    ((List.map_injective_iff.mpr fun _ _ => String.toList_inj.mp) pieces.symm)

/-- Where no question ends with a fault, the report stumbles over nothing. -/
theorem not_stumbles_of_asked (unharmed : ∀ position ∈ listing store root, ∀ cause,
      asked inExpression store root position.path ≠ .error (.fault cause)) (cause : Fault) :
    ¬(inExpression = false ∧ Stumbles store root cause) := by
  rintro ⟨outside, call, among, mistakable, strays⟩
  have listed := (policy.mem_of_mem_invocations among).1
  have typed : call.position.tree.type? ≠ none := by
    rcases Bool.or_eq_true_iff.mp mistakable with function | object
    · exact Tree.type?_ne_none function
    · exact Tree.type?_ne_none object
  obtain ⟨id, there, same⟩ := part?_of_mem_listing unshared listed typed
  rw [← same, Store.isMistakable_tree (unshared.part there)] at mistakable
  refine unharmed _ listed cause ?_
  rw [asked_eq there, (Store.parens_eq_error unshared.nodesApart there).mpr
    ⟨outside, mistakable, strays⟩]
  rfl

end Fresh

/-- The report answers with the entries of the positions that need parentheses. -/
theorem ofDocument_eq {document : Document} (proper : document.isProper = true)
    (loaded : (Store.load document).run .empty = (value, store)) {inExpression : Bool}
    (known : (listing store value).all Position.isKnown = true)
    (unharmed : ∀ position ∈ listing store value, ∀ cause,
      asked inExpression store value position.path ≠ .error (.fault cause)) :
    ofDocument inExpression document = .ok ((wrapped inExpression store value).map entry) := by
  have brings := (Store.loaded document proper .empty).brings
  rw [loaded] at brings
  have intact := brings.intact value List.mem_cons_self
  obtain ⟨before, opens, ends⟩ :=
    ends_visit loaded proper (notes intact.unshared inExpression intact.whole)
  rw [ofDocument_of_visit loaded]
  cases outcome : Visitor.visitFrom (behaviour inExpression) 0 (begun value store) with
  | ok answer after =>
    rw [outcome] at ends
    have log : after.state = (ledger inExpression store value).record policy (listing store value)
      before.state := ends.1.log
    have opens : before.state = [] := opens
    dsimp only
    rw [log, opens, record_ledger _ _ _ known, List.nil_append, wrapped]
  | error halt after =>
    rw [outcome] at ends
    rcases ends with ⟨_, unknown, _⟩ | ⟨_, call, among, cause, _, outside, stray⟩
    · rw [known] at unknown
      cases unknown
    · exact absurd ⟨outside, call, among, stray⟩
        (not_stumbles_of_asked intact.unshared _ unharmed cause)

/-- The report on a document lists the expressions that need parentheses in it. Its positions are
those to which elements, keys of plain records and declared fields lead; where their types are all
known and no question about them ends with a fault, there is one entry for each of the expressions
for which a root of which nothing has been asked answers that parentheses are needed, in document
order, with the names down to it joined by points and the name of its type. Two of them may go by
the same joined names, but only where a name is empty or has a point itself. Expressions that are
wrapped in an expression are among those that are wrapped elsewhere. -/
theorem report_lists_wrapped (document : Document) (proper : document.isProper = true) :
    ∃ value store, (Store.load document).run .empty = (value, store) ∧
      (∀ path part, ⟨path, store.tree part⟩ ∈ listing store value ↔
        store.terrain.Reaches false value path part) ∧
      (wrapped true store value).Sublist (wrapped false store value) ∧
      ∀ inExpression, ((wrapped inExpression store value).map Position.path).Nodup ∧
        ((∀ position ∈ wrapped inExpression store value, ∀ name ∈ position.path,
            name.text ≠ "" ∧ '.' ∉ name.text.toList) →
          ((wrapped inExpression store value).map joined).Nodup) ∧
        ((listing store value).all Position.isKnown = true →
          (∀ position ∈ listing store value, ∀ cause,
            asked inExpression store value position.path ≠ .error (.fault cause)) →
          ofDocument inExpression document =
            .ok ((wrapped inExpression store value).map fun position =>
              { path := joined position, type := typeName position }) ∧
          ∀ (file : String) (content : FileContent),
            Command.readDocument file content = .ok document →
            (Command.parens file inExpression).run content = .ok (.object [
              ("status", .text "ok"), ("schema_version", .text "1"), ("file", .text file),
              ("count", .number (.whole (wrapped inExpression store value).length)),
              ("paths", .array ((wrapped inExpression store value).map fun position => .object [
                ("path", .text (joined position)), ("node_type", .text (typeName position))]))])) := by
  have intact := (Store.loaded document proper .empty).brings.intact _ List.mem_cons_self
  have quiet : policy.walksComments = false := by decide
  refine ⟨_, _, rfl, fun path part => ?_, sublist_wrapped intact.unshared, fun inExpression =>
    ⟨nodup_wrapped intact.unshared _, nodup_joined intact.unshared _, fun known unharmed => ?_⟩⟩
  · rw [← quiet]
    exact Stroll.mem_positions_iff (fun _ _ => rfl) intact.unshared (.inl quiet) [] path
  have lists := ofDocument_eq proper rfl known unharmed
  refine ⟨lists, fun file content read => ?_⟩
  rw [Command.run_parens, read]
  dsimp only
  rw [lists]
  dsimp only
  rw [Command.parensResponse, List.length_map, List.map_map]
  rfl

/-- The statements `{}.x` and `(-y).z` in records, with the fields left out that have defaults. -/
def pointedRecord : Document :=
  .object [
    ("a.b", .nodeOf .expressionStatement [("expression", .nodeOf .memberExpression
      [("object", .nodeOf .objectExpression [("properties", .array [])]),
        ("property", .nameOf "x")])]),
    ("a", .object [("b", .nodeOf .expressionStatement [("expression", .nodeOf .memberExpression
      [("object", .nodeOf .unaryExpression [("operator", .text "-"), ("argument", .nameOf "y")]),
        ("property", .nameOf "z")])])])]

/-- In an expression only the operator is wrapped, and in a statement also the object. A point in a
key gives both the same joined names. -/
theorem report_pointedRecord : pointedRecord.isProper = true ∧
    ofDocument true pointedRecord = .ok [⟨"a.b.expression.object", "UnaryExpression"⟩] ∧
    ofDocument false pointedRecord =
      .ok [⟨"a.b.expression.object", "ObjectExpression"⟩,
        ⟨"a.b.expression.object", "UnaryExpression"⟩] := by
  have proper : pointedRecord.isProper = true := by decide +kernel
  obtain ⟨value, store, loaded, _, _, lists⟩ := report_lists_wrapped pointedRecord proper
  obtain ⟨rfl, rfl⟩ : value = ((Store.load pointedRecord).run .empty).1 ∧
      store = ((Store.load pointedRecord).run .empty).2 := by
    rw [loaded]
    exact ⟨rfl, rfl⟩
  have known : (listing ((Store.load pointedRecord).run .empty).2
      ((Store.load pointedRecord).run .empty).1).all Position.isKnown = true := by decide +kernel
  have unharmed (inExpression : Bool) : ((listing ((Store.load pointedRecord).run .empty).2
      ((Store.load pointedRecord).run .empty).1).all fun position =>
        (asked inExpression ((Store.load pointedRecord).run .empty).2
          ((Store.load pointedRecord).run .empty).1 position.path).isOk) = true := by
    cases inExpression <;> decide +kernel
  have answered (inExpression : Bool) :=
    (lists inExpression).2.2 known fun position listed cause faults => by
      have answer := List.all_eq_true.mp (unharmed inExpression) position listed
      rw [faults] at answer
      cases answer
  refine ⟨proper, (answered true).1.trans (congrArg Except.ok ?_),
    (answered false).1.trans (congrArg Except.ok ?_)⟩
  · decide +kernel
  · decide +kernel

end ParensReport

end CodeTree
