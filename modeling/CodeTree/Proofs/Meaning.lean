/-
What pruning does to the meaning of a program. A program is read as a computation: blocks run
their statements in order, an `if` runs its test and then a branch, and expressions and all other
statements do whatever an interpretation says, provided that a `!` negates. A statement that is
pruned leaves the program as if it had done nothing. The surroundings of a statement see only its
meaning, so that this is a matter of the block or the `if` that it is removed from: a block runs
one statement less, and a mended `if` still runs its test and the branch that is left.
-/

import CodeTree.Proofs.Felling
import CodeTree.Proofs.Loading
import CodeTree.Proofs.Looking

namespace CodeTree

variable {tree node new : Tree} {key : String} {rest front : List SlotName} {items : List Tree}
  {type : NodeType} {position : Nat}

variable {block branch idle item root statement : Tree} {id : CompositeId} {path : List SlotName}
  {name slot : SlotName}

namespace Tree

theorem member_graft_other (different : SlotName.key key ≠ name) :
    (tree.graft (name :: rest) new).member key = tree.member key := by
  rw [member, inner?_graft, if_neg different, member]

theorem member_graft_self {old : Tree} (entry : tree.inner? (.key key) = some old) :
    (tree.graft (.key key :: rest) new).member key = old.graft rest new := by
  rw [member, inner?_graft, if_pos rfl, entry, Option.map_some, Option.getD_some]

/-- Only the place under `type` decides the type. -/
theorem type?_graft_other (different : SlotName.key "type" ≠ name) :
    (tree.graft (name :: rest) new).type? = tree.type? := by
  rw [type?, member_graft_other different, type?]

end Tree

/-! ### Executing a tree -/

/-- What expressions and opaque statements do. An expression also gives a truth value. -/
structure Interpretation (m : Type → Type) where
  expression : Tree → m Bool
  statement : Tree → m Unit

namespace Interpretation

variable {m : Type → Type} [Monad m] (meaning : Interpretation m)

/-- A `!` runs its argument and negates the result. -/
def Negates : Prop :=
  ∀ {tree : Tree}, tree.type? = some .unaryExpression →
    (tree.member "operator").text? = some "!" →
      meaning.expression tree = not <$> meaning.expression (tree.member "argument")

/-- What a statement does, given what its parts do. -/
def perform (tree : Tree) (part : String → m Unit) : m Unit :=
  match tree.type? with
  | some .program | some .blockStatement => part "body"
  | some .ifStatement => do
    if ← meaning.expression (tree.member "test") then part "consequent" else part "alternate"
  | some .expressionStatement => do
    let _ ← meaning.expression (tree.member "expression")
  | _ => meaning.statement tree

mutual

/-- What a tree of statements does. An array runs its elements in order, and what is missing does
nothing. -/
def execute : Tree → m Unit
  | .leaf _ => pure ()
  | .array _ items => executeAll items
  | .object id members =>
    meaning.perform (.object id members) fun key =>
      (Entries.lookup key (executeMembers members)).getD (pure ())

def executeAll : List Tree → m Unit
  | [] => pure ()
  | item :: rest => do
    execute item
    executeAll rest

def executeMembers : List (String × Tree) → List (String × m Unit)
  | [] => []
  | (key, tree) :: rest => (key, execute tree) :: executeMembers rest

end

theorem lookup_executeMembers (key : String) (members : List (String × Tree)) :
    Entries.lookup key (meaning.executeMembers members) =
      (Entries.lookup key members).map meaning.execute := by
  induction members with
  | nil => rw [executeMembers, Entries.lookup, Entries.lookup, Option.map_none]
  | cons member rest ih =>
    obtain ⟨other, tree⟩ := member
    rw [executeMembers, Entries.lookup, Entries.lookup, ih]
    split <;> rfl

/-- A typed tree does what its type says. -/
theorem execute_typed (typed : tree.type? ≠ none) :
    meaning.execute tree = meaning.perform tree fun key => meaning.execute (tree.member key) := by
  obtain ⟨id, members, rfl⟩ := Tree.exists_object typed
  rw [execute]
  congr 1
  funext key
  rw [lookup_executeMembers, Tree.member, Tree.inner?]
  cases Entries.lookup key members with
  | none =>
    rw [Option.map_none, Option.getD_none, Option.getD_none, execute]
  | some tree => rfl

theorem execute_null (null : tree.isNull = true) : meaning.execute tree = pure () := by
  rw [Tree.eq_leaf_of_isNull null, execute]

/-- Blocks of statements. -/
theorem execute_block (block : tree.type? = some .program ∨ tree.type? = some .blockStatement) :
    meaning.execute tree = meaning.execute (tree.member "body") := by
  rcases block with typed | typed <;>
    rw [execute_typed meaning (by rw [typed]; exact Option.some_ne_none _), perform, typed]

theorem execute_if (typed : tree.type? = some .ifStatement) :
    meaning.execute tree = (do
      if ← meaning.expression (tree.member "test") then meaning.execute (tree.member "consequent")
      else meaning.execute (tree.member "alternate")) := by
  rw [execute_typed meaning (by rw [typed]; exact Option.some_ne_none _), perform, typed]

theorem execute_expressionStatement (typed : tree.type? = some .expressionStatement) :
    meaning.execute tree = (do let _ ← meaning.expression (tree.member "expression")) := by
  rw [execute_typed meaning (by rw [typed]; exact Option.some_ne_none _), perform, typed]

variable [LawfulMonad m]

theorem executeAll_append (front behind : List Tree) :
    meaning.executeAll (front ++ behind) = (do
      meaning.executeAll front
      meaning.executeAll behind) := by
  induction front with
  | nil => rw [List.nil_append, executeAll, pure_bind]
  | cons item rest ih =>
    rw [List.cons_append, executeAll, executeAll, ih, bind_assoc]

/-- Running an array one element of which has been changed. -/
theorem executeAll_modify (there : items[position]? = some item) (change : Tree → Tree) :
    meaning.executeAll (items.modify position change) = (do
      meaning.executeAll (items.take position)
      meaning.execute (change item)
      meaning.executeAll (items.drop (position + 1))) := by
  obtain ⟨inside, rfl⟩ := List.getElem?_eq_some_iff.mp there
  rw [List.modify_eq_take_cons_drop inside, executeAll_append, executeAll]

/-! ### Negation -/

omit [Monad m] [LawfulMonad m] in
theorem Negates.negation [Monad m] [LawfulMonad m] {meaning : Interpretation m}
    (negates : meaning.Negates) (fresh : CompositeId) (test : Tree) :
    meaning.expression (Tree.negation fresh test) = not <$> meaning.expression test := by
  rw [Tree.negation]
  split
  · rename_i negative
    obtain ⟨unary, operator⟩ := Bool.and_eq_true_iff.mp negative
    have twice : not ∘ not = id := by
      funext truth
      exact Bool.not_not truth
    rw [negates ((Tree.isOf_iff rfl).mp unary) (eq_of_beq operator), ← comp_map, twice, id_map]
  · exact negates rfl rfl

end Interpretation

/-! ### Statements -/

/-- A statement of a program: the root, an element of the body of a block, or a branch of an `if`.
-/
inductive Tree.StatementAt (root : Tree) : List SlotName → Tree → Prop where
  | root : StatementAt root [] root
  | element {path : List SlotName} {block statement : Tree} {id : CompositeId} {items : List Tree}
      {position : Nat} :
      StatementAt root path block →
      block.type? = some .program ∨ block.type? = some .blockStatement →
      block.inner? (.key "body") = some (.array id items) → items[position]? = some statement →
      StatementAt root (path ++ [.key "body", .index position]) statement
  | branch {path : List SlotName} {node statement : Tree} {key : String} :
      StatementAt root path node → node.type? = some .ifStatement →
      key = "consequent" ∨ key = "alternate" → node.inner? (.key key) = some statement →
      StatementAt root (path ++ [.key key]) statement

namespace Tree.StatementAt

theorem at? (stands : root.StatementAt path statement) : root.at? path = some statement := by
  induction stands with
  | root => rfl
  | element _ _ body item reached =>
    rw [at?_append, reached, Option.bind_some, Tree.at?, body, Option.bind_some, Tree.at?]
    simp [inner?, item, Tree.at?]
  | branch _ _ _ entry reached =>
    exact at?_concat.mpr ⟨_, reached, entry⟩

/-- The surroundings of a statement see only what it does. -/
theorem frame {m : Type → Type} [Monad m] [LawfulMonad m] (meaning : Interpretation m)
    (keyed : root.Keyed) (stands : root.StatementAt path statement) :
    ∃ frame : m Unit → m Unit,
      ∀ new, meaning.execute (root.graft path new) = frame (meaning.execute new) := by
  induction stands with
  | root => exact ⟨id, fun new => by rw [graft, id_eq]⟩
  | @element path block statement id items position within block? body item ih =>
    obtain ⟨frame, framed⟩ := ih
    refine ⟨fun run => frame (do
      meaning.executeAll (items.take position)
      run
      meaning.executeAll (items.drop (position + 1))), fun new => ?_⟩
    have typed : (block.graft [.key "body", .index position] new).type? = block.type? :=
      type?_graft_other (by decide)
    rw [graft_append keyed within.at?, framed, meaning.execute_block (by rw [typed]; exact block?),
      member_graft_self body, graft, Interpretation.execute, meaning.executeAll_modify item, graft]
  | @branch path node statement key within if? named entry ih =>
    obtain ⟨frame, framed⟩ := ih
    have typed (new : Tree) : (node.graft [.key key] new).type? = some .ifStatement := by
      refine (type?_graft_other ?_).trans if?
      rcases named with rfl | rfl <;> decide
    have test (new : Tree) : (node.graft [.key key] new).member "test" = node.member "test" := by
      refine member_graft_other ?_
      rcases named with rfl | rfl <;> decide
    refine ⟨fun run => frame (do
      if ← meaning.expression (node.member "test") then
        if key = "consequent" then run else meaning.execute (node.member "consequent")
      else if key = "alternate" then run else meaning.execute (node.member "alternate")),
      fun new => ?_⟩
    rw [graft_append keyed within.at?, framed, meaning.execute_if (typed new), test]
    rcases named with rfl | rfl
    · rw [member_graft_self entry, member_graft_other (by decide), graft]
      rfl
    · rw [member_graft_self entry, member_graft_other (by decide), graft]
      rfl

end Tree.StatementAt

/-! ### Mending and removing -/

namespace Tree

/-- What a typed tree reads under the keys that are left after a key has been dropped. -/
theorem member_dropped (typed : tree.type? ≠ none) (key other : String) :
    (tree.exchangeSlot (.key key) []).member other =
      if other = key then .leaf .null else tree.member other := by
  obtain ⟨id, members, rfl⟩ := exists_object typed
  rw [exchangeSlot, member, inner?, Entries.lookup_drop]
  split <;> rfl

theorem type?_dropped (typed : tree.type? = some type) (different : "type" ≠ key) :
    (tree.exchangeSlot (.key key) []).type? = some type := by
  rw [type?, member_dropped (by rw [typed]; exact Option.some_ne_none _), if_neg different]
  exact typed

end Tree

namespace Interpretation

variable {m : Type → Type} [Monad m] [LawfulMonad m] {meaning : Interpretation m}

/-- A block from which an element has been removed does what it did with an idle element. -/
theorem execute_shortened
    (block? : block.type? = some .program ∨ block.type? = some .blockStatement)
    (body : block.inner? (.key "body") = some (.array id items))
    (there : items[position]? = some item) (idles : meaning.execute idle = pure ()) :
    meaning.execute (block.graft [.key "body"] (.array id (splice position 1 [] items))) =
      meaning.execute (block.graft [.key "body", .index position] idle) := by
  have stillBlock (rest : List SlotName) (new : Tree) :
      (block.graft (.key "body" :: rest) new).type? = some .program ∨
        (block.graft (.key "body" :: rest) new).type? = some .blockStatement := by
    rw [Tree.type?_graft_other (by decide)]
    exact block?
  rw [meaning.execute_block (stillBlock [] _), meaning.execute_block (stillBlock _ idle),
    Tree.member_graft_self body, Tree.member_graft_self body, Tree.graft, Tree.graft, execute, execute,
    meaning.executeAll_modify there, Tree.graft, idles, pure_bind, ← executeAll_append, splice,
    List.append_nil]

omit [LawfulMonad m] in
/-- An `if` that has lost a branch does what it did with an idle branch. -/
theorem execute_dropped (typed : node.type? = some .ifStatement)
    (named : key = "consequent" ∨ key = "alternate") (entry : node.inner? (.key key) = some branch)
    (idles : meaning.execute idle = pure ()) :
    meaning.execute (node.exchangeSlot (.key key) []) =
      meaning.execute (node.graft [.key key] idle) := by
  have ne_none : node.type? ≠ none := by
    rw [typed]
    exact Option.some_ne_none _
  have apart (other : String) (different : other ≠ key) : SlotName.key other ≠ .key key :=
    fun same => different (SlotName.key.inj same)
  have typeless : "type" ≠ key := by rcases named with rfl | rfl <;> decide
  have testless : "test" ≠ key := by rcases named with rfl | rfl <;> decide
  rw [meaning.execute_if (Tree.type?_dropped typed typeless),
    meaning.execute_if ((Tree.type?_graft_other (apart _ typeless)).trans typed),
    Tree.member_dropped ne_none, Tree.member_dropped ne_none, Tree.member_dropped ne_none,
    if_neg testless, Tree.member_graft_other (apart _ testless)]
  rcases named with rfl | rfl
  · rw [if_pos rfl, if_neg (by decide), Tree.member_graft_self entry,
      Tree.member_graft_other (by decide), Tree.graft, idles, execute]
  · rw [if_pos rfl, if_neg (by decide), Tree.member_graft_self entry,
      Tree.member_graft_other (by decide), Tree.graft, idles, execute]

/-- Mending an `if` keeps what it does. -/
theorem Negates.execute_mended (negates : meaning.Negates) (typed : node.type? = some .ifStatement)
    (fresh : CompositeId) : meaning.execute (node.mended fresh) = meaning.execute node := by
  rw [Tree.mended]
  split
  · rename_i gone
    split
    · rename_i alone
      have statement : (node.testStatement fresh).type? = some .expressionStatement := rfl
      have test : (node.testStatement fresh).member "expression" = node.member "test" := rfl
      rw [meaning.execute_expressionStatement statement, test, meaning.execute_if typed,
        meaning.execute_null gone, meaning.execute_null alone]
      simp only [ite_self]
    · rw [meaning.execute_if (Tree.type?_turned typed fresh), meaning.execute_if typed,
        Tree.member_turned typed, Tree.member_turned typed, Tree.member_turned typed,
        if_neg (by decide), if_neg (by decide), if_pos rfl, if_neg (by decide), if_pos rfl,
        if_pos rfl, negates.negation, meaning.execute_null gone, bind_map_left, execute]
      refine bind_congr fun truth => ?_
      cases truth <;> rfl
  · rfl

end Interpretation

/-! ### Pruned statements -/

namespace Tree

/-- The parent node of a node in a slot of another. -/
theorem parentNode?_slot (inner : tree.nodeAt (front ++ [slot]) = true)
    (outer : tree.nodeAt front = true) : tree.parentNode? (front ++ [slot]) = some front := by
  rw [parentNode?, if_pos inner, fronts_concat, List.find?_cons, outer]

/-- The parent node of a node that stands in an array. -/
theorem parentNode?_element {place : SlotName} (inner : tree.nodeAt (front ++ [slot, place]) = true)
    (between : tree.nodeAt (front ++ [slot]) = false) (outer : tree.nodeAt front = true) :
    tree.parentNode? (front ++ [slot, place]) = some front := by
  have split : front ++ [slot, place] = front ++ [slot] ++ [place] := by simp
  rw [parentNode?, if_pos inner, split, fronts_concat, fronts_concat, List.find?_cons, between]
  dsimp only
  rw [List.find?_cons, outer]

theorem nodeAt_of_type? (there : tree.at? path = some node) (typed : node.type? = some type)
    (derives : type.isSubtypeOf .node = true) : tree.nodeAt path = true := by
  rw [nodeAt, there, Option.any_some, isNode, isOf, typed, Option.any_some, derives]

theorem isHollow_of_type? (typed : node.type? = some type)
    (notDeclaration : type ≠ .variableDeclaration) (notExpression : type ≠ .expressionStatement) :
    node.isHollow = false := by
  rw [isHollow, isOf_eq_false rfl typed notDeclaration, isOf_eq_false rfl typed notExpression]
  rfl

section Pruned

variable (keyed : root.Keyed)

include keyed

/-- Pruning an element of a block removes it. -/
theorem prune_element (there : root.at? path = some block)
    (block? : block.type? = some .program ∨ block.type? = some .blockStatement)
    (body : block.inner? (.key "body") = some (.array id items))
    (item : items[position]? = some statement) (node : statement.isNode = true)
    (fresh : CompositeId) :
    root.prune fresh (path ++ [.key "body", .index position]) =
      root.graft path (block.graft [.key "body"] (.array id (splice position 1 [] items))) := by
  have atBody : root.at? (path ++ [.key "body"]) = some (.array id items) :=
    at?_concat.mpr ⟨block, there, body⟩
  have split : path ++ [.key "body", .index position] =
      path ++ [.key "body"] ++ [.index position] := by simp
  have atItem : root.at? (path ++ [.key "body", .index position]) = some statement := by
    rw [split]
    exact at?_concat.mpr ⟨_, atBody, item⟩
  have removed : root.replaceAt (path ++ [.key "body", .index position]) [] =
      root.graft path (block.graft [.key "body"] (.array id (splice position 1 [] items))) := by
    rw [split, replaceAt_concat, exchange, atBody, Option.elim, graft_append keyed there]
    rfl
  have outer : root.nodeAt path = true := by
    rcases block? with typed | typed <;> exact nodeAt_of_type? there typed (by decide)
  have found := parentNode?_element (by rw [nodeAt, atItem, Option.any_some, node])
    (by rw [nodeAt, atBody]; rfl) outer
  have typed : (block.graft [.key "body"] (.array id (splice position 1 [] items))).type? =
      block.type? := type?_graft_other (by decide)
  rw [prune, found]
  dsimp only
  rw [removed, at?_graft there]
  dsimp only
  rcases block? with block? | block? <;> rw [block?] at typed
  · rw [isHollow_of_type? typed (by decide) (by decide), isOf_eq_false rfl typed (by decide)]
    rfl
  · rw [isHollow_of_type? typed (by decide) (by decide), isOf_eq_false rfl typed (by decide)]
    rfl

/-- Pruning a branch of an `if` removes it and mends the `if`. -/
theorem prune_branch (there : root.at? path = some node) (below : path ≠ [])
    (typed : node.type? = some .ifStatement) (named : key = "consequent" ∨ key = "alternate")
    (entry : node.inner? (.key key) = some branch) (isNode : branch.isNode = true)
    (fresh : CompositeId) :
    root.prune fresh (path ++ [.key key]) =
      root.graft path ((node.exchangeSlot (.key key) []).mended fresh) := by
  have removed : root.replaceAt (path ++ [.key key]) [] =
      root.graft path (node.exchangeSlot (.key key) []) := by
    rw [replaceAt_concat, exchange, there, Option.elim]
  have found := parentNode?_slot
    (by rw [nodeAt, at?_concat.mpr ⟨_, there, entry⟩, Option.any_some, isNode])
    (nodeAt_of_type? there typed (by decide))
  have stillIf : (node.exchangeSlot (.key key) []).type? = some .ifStatement :=
    type?_dropped typed (by rcases named with rfl | rfl <;> decide)
  have keyedStill : (node.exchangeSlot (.key key) []).Keyed := by
    obtain ⟨id, members, rfl⟩ := exists_object_of_type typed
    exact Keyed.drop (keyed.part there) key
  obtain ⟨front, slot, rfl⟩ : ∃ front slot, path = front ++ [slot] := by
    rcases List.eq_nil_or_concat path with rfl | ⟨front, slot, rfl⟩
    · exact absurd rfl below
    · exact ⟨front, slot, List.concat_eq_append⟩
  rw [prune, found]
  dsimp only
  rw [removed, at?_graft there]
  dsimp only
  rw [isHollow_of_type? stillIf (by decide) (by decide), if_neg Bool.false_ne_true,
    if_pos ((isOf_iff rfl).mpr stillIf), mendIf, mended]
  split
  · split
    · rw [replaceAt_concat, exchange_single (keyed.graft keyedStill _) (at?_graft there _),
        graft_graft]
    · rw [graft_graft]
  · rfl

end Pruned

end Tree

/-- A program from which a statement has been pruned does what it did with an idle statement in
its place. -/
theorem Interpretation.Negates.execute_prune {m : Type → Type} [Monad m] [LawfulMonad m]
    {meaning : Interpretation m} (negates : meaning.Negates) (keyed : root.Keyed)
    (program : root.type? = some .program) (stands : root.StatementAt path statement)
    (below : path ≠ []) (isNode : statement.isNode = true) (idles : meaning.execute idle = pure ())
    (fresh : CompositeId) :
    meaning.execute (root.prune fresh path) = meaning.execute (root.graft path idle) := by
  cases stands with
  | root => exact absurd rfl below
  | element within block body item =>
    obtain ⟨frame, framed⟩ := within.frame meaning keyed
    rw [Tree.prune_element keyed within.at? block body item isNode,
      Tree.graft_append keyed within.at?, framed, framed, execute_shortened block body item idles]
  | @branch upper _ _ _ within typed named entry =>
    obtain ⟨frame, framed⟩ := within.frame meaning keyed
    have inner : upper ≠ [] := by
      rintro rfl
      cases within.at?
      rw [program] at typed
      cases typed
    rw [Tree.prune_branch keyed within.at? inner typed named entry isNode,
      Tree.graft_append keyed within.at?, framed, framed, negates.execute_mended,
      execute_dropped typed named entry idles]
    exact Tree.type?_dropped typed (by rcases named with rfl | rfl <;> decide)

namespace World

/-- In every run over a program whose composites are all in the store, each statement can be
stepped to and pruned, and the program then does what it did with a statement in its place that
does nothing, however expressions and other statements are understood. -/
theorem pruned_statement_leaves_meaning {world : World} (run : Run world)
    (held : world.isHeld 0 = true) (fits : world.store.Fits)
    (whole : world.store.Whole (world.value 0)) (program : world.tree.type? = some .program)
    {path : List SlotName} {statement : Tree} (stands : world.tree.StatementAt path statement)
    (below : path ≠ []) (isNode : statement.isNode = true) :
    ∃ c mid remaining after, world.descend 0 path = (c, mid) ∧
      Action.prune c mid = .ok remaining after ∧
      ∀ {m : Type → Type} [Monad m] [LawfulMonad m] {meaning : Interpretation m} {idle : Tree},
        meaning.Negates → meaning.execute idle = pure () →
          meaning.execute after.tree = meaning.execute (world.tree.graft path idle) := by
  have orderly : Orderly world := ⟨run.coherent, held, fits, whole⟩
  obtain ⟨id, there⟩ : ∃ id, world.store.part? (world.value 0) path = some (.composite id) := by
    have reached := stands.at?
    rw [tree, Store.at?_tree orderly.coherent.unshared] at reached
    obtain ⟨part, there, shown⟩ := Option.map_eq_some_iff.mp reached
    obtain ⟨id, members, object⟩ := Tree.exists_object (Tree.type?_ne_none isNode)
    refine ⟨id, there.trans (congrArg some ?_)⟩
    rw [← world.store.value_tree part, shown, object]
    rfl
  obtain ⟨orderlyMid, looks, leads, here⟩ := orderly.descend (rfl : world.follow? 0 [] = some 0) there
  rw [List.nil_append] at leads
  have sameTree := orderly.tree_of_looks looks
  have steady : (world.descend 0 path).2.tree.Steady := by
    rw [sameTree]
    exact ⟨Tree.isOf_eq_false rfl program (by decide), Tree.isOf_eq_false rfl program (by decide),
      Tree.isOf_eq_false rfl program (by decide)⟩
  obtain ⟨remaining, fresh, after, result, _, _, _, _, pruned⟩ := orderlyMid.prune
    (looks.quiet.viewless run.viewless) steady leads below here
  refine ⟨_, _, remaining, after, rfl, result, ?_⟩
  intro m _ _ meaning idle negates idles
  have keyed : world.tree.Keyed := Store.keyed_tree orderly.coherent.unshared
  rw [pruned, sameTree, negates.execute_prune keyed program stands below isNode idles]

/-- `if (!a) {} else ;` -/
def negatedIf : Document :=
  .nodeOf .program [("body", .array [.nodeOf .ifStatement [
    ("test", .nodeOf .unaryExpression [("operator", .text "!"), ("argument", .nameOf "a")]),
    ("consequent", .nodeOf .blockStatement [("body", .array [])]),
    ("alternate", .nodeOf .emptyStatement [])]])]

def ofNegatedIf : World :=
  ((⟨((Store.load negatedIf).run .empty).2, #[], #[], []⟩ : World).addRoot
    ((Store.load negatedIf).run .empty).1).2.hold 0

/-- Without the branch that it had, the `if` runs the other one if its test does not hold. -/
theorem pruned_consequent_leaves_alternate :
    Run ofNegatedIf ∧ ofNegatedIf.tree.type? = some .program ∧
      ∃ c mid remaining after,
        ofNegatedIf.descend 0 [.key "body", .index 0, .key "consequent"] = (c, mid) ∧
        Action.prune c mid = .ok remaining after ∧
        ∀ {m : Type → Type} [Monad m] [LawfulMonad m] {meaning : Interpretation m} {idle : Tree},
          meaning.Negates → meaning.execute idle = pure () →
            meaning.execute after.tree = meaning.execute
              (ofNegatedIf.tree.graft [.key "body", .index 0, .key "consequent"] idle) := by
  have loaded := Store.loaded negatedIf rfl .empty
  have intact := loaded.brings.intact _ List.mem_cons_self
  have run : Run ofNegatedIf := .start #[] intact.unshared intact.free
  have fits : ofNegatedIf.store.Fits := loaded.brings.fits Store.fits_empty
  have element : ofNegatedIf.tree.StatementAt ([] ++ [.key "body", .index 0]) _ :=
    .element .root (.inl rfl) rfl rfl
  have stands : ofNegatedIf.tree.StatementAt (_ ++ [.key "consequent"]) _ :=
    .branch element rfl (.inl rfl) rfl
  exact ⟨run, rfl, pruned_statement_leaves_meaning run rfl fits intact.whole rfl stands
    (List.cons_ne_nil _ _) rfl⟩

end World

end CodeTree
