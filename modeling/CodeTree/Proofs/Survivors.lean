/-
Pruning where cursors have been asked for their surroundings. As what they remember is true, pruning
a node takes away its slot and those of the ancestors that this empties, tidies up the nearest
ancestor that stays, and gives its cursor, which is still found where it was. Pruning is not always
all or nothing: when it comes to the root it is refused, although the slots below are gone by then.
-/

import CodeTree.Proofs.Freshness
import CodeTree.Proofs.Looking

namespace CodeTree

variable {path : List SlotName}

/-- Pruning that comes to the root tidies nothing up. -/
theorem Tree.Stranded.tidied {tree : Tree} (stranded : tree.Stranded path) (fresh : CompositeId) :
    (tree.left path).tidied fresh (tree.survivor? path) = tree.left path := by
  rcases stranded with root | ⟨survives, branch, reducible⟩
  · have nobody : tree.survivor? path = none := by
      generalize found : tree.ancestors path = around
      induction around generalizing tree path with
      | nil =>
        rw [survivor?, found]
        rfl
      | cons above around ih =>
        obtain ⟨_, _, _, _, split, _⟩ := ancestors_eq_cons found
        have below : [] ≠ path := by
          rw [split]
          simp
        cases hollow : ((tree.replaceAt path []).at? above).any isHollow with
        | true =>
          rw [gone_of_hollow found hollow, List.mem_cons, or_iff_right below] at root
          rw [survivor?_of_hollow found hollow]
          exact ih root (ancestors_removed found)
        | false =>
          rw [gone_of_firm found hollow, List.mem_singleton] at root
          exact absurd root below
    rw [nobody]
    rfl
  · rw [isReducible, Bool.and_eq_true] at reducible
    rw [survives, Tree.tidied, Option.elim, at?, Option.elim, branch, if_pos rfl, mendIf,
      if_pos reducible.1, if_pos reducible.2]
    rfl

namespace World

/-- The world with a root over a document. -/
def planted (document : Document) : World :=
  ((⟨((Store.load document).run .empty).2, #[], #[], []⟩ : World).addRoot
    ((Store.load document).run .empty).1).2.hold 0

theorem orderly_planted {document : Document} (proper : document.isProper = true) :
    Orderly (planted document) ∧ Viewless (planted document) := by
  have loaded := Store.loaded document proper .empty
  have intact := loaded.brings.intact _ List.mem_cons_self
  have run : Run (planted document) := .start #[] intact.unshared intact.free
  exact ⟨⟨run.coherent, rfl, loaded.brings.fits Store.fits_empty, intact.whole⟩, run.viewless⟩

/-- Stepping to a composite of a document. -/
theorem descend_planted {document : Document} (proper : document.isProper = true)
    {id : CompositeId} (there : (planted document).store.part? ((planted document).value 0) path =
      some (.composite id)) :
    Orderly ((planted document).descend 0 path).2 ∧
      Fresh ((planted document).descend 0 path).2.Reachable ((planted document).descend 0 path).2 ∧
      ((planted document).descend 0 path).2.follow? 0 path =
        some ((planted document).descend 0 path).1 ∧
      ((planted document).descend 0 path).2.value ((planted document).descend 0 path).1 =
        .composite id ∧
      ((planted document).descend 0 path).2.tree = (planted document).tree := by
  obtain ⟨orderly, viewless⟩ := orderly_planted proper
  obtain ⟨orderlyMid, looks, leads, here⟩ :=
    orderly.descend (rfl : (planted document).follow? 0 [] = some 0) there
  refine ⟨orderlyMid, fun d _ => ?_, leads, here, orderly.tree_of_looks looks⟩
  rw [looks.quiet.viewless viewless d]
  exact truthful_empty _ d

section Orderly

variable {world : World} (orderly : Orderly world)

include orderly

theorem Orderly.recalls (fresh : Fresh world.Reachable world) : world.Recalls path := by
  intro front d answer _ toD remembered
  rw [(fresh d ⟨front, toD⟩).parent remembered, orderly.coherent.second?_eq toD,
    Tree.parentNode?_eq]

variable {c : CursorId} (leads : world.follow? 0 path = some c)

include leads

/-- The ancestors of a node are where the cursors of the nodes above it stand. -/
theorem Orderly.ancestors_eq (isNode : world.isNodeAt c = true) :
    (world.tree.ancestors path).map (world.follow? 0) =
      ((world.chain c).tail.filter world.isNodeAt).map some := by
  rw [orderly.nodeAt_iff leads] at isNode
  rw [Tree.ancestors_of_nodeAt isNode]
  have climbed := orderly.chain_fronts leads
  generalize (world.chain c).tail = cursors, Tree.fronts path = places at climbed
  induction climbed with
  | nil => rfl
  | @cons d front _ _ toD _ ih =>
    rw [List.filter_cons, List.filter_cons, orderly.nodeAt_iff toD]
    split
    · rw [List.map_cons, List.map_cons, toD, ih]
    · exact ih

/-- A slot that cannot be removed is not pruned, and the tree stays as it is. -/
theorem Orderly.prune_refused (recalls : world.Recalls path) (fixed : ¬world.Removable path c) :
    ∃ cause after, Action.prune c world = .error (.error cause) after ∧ after.tree = world.tree := by
  rcases List.eq_nil_or_concat path with rfl | ⟨front, slot, rfl⟩
  · obtain ⟨_, after, fells, ⟨stranded, result⟩ | ⟨free, _⟩⟩ :=
      orderly.prune_ends leads recalls fun below => absurd rfl below
    · refine ⟨.noParent, after, result, ?_⟩
      have nobody : world.tree.ancestors [] = [] := by
        rw [Tree.ancestors, List.filter_cons]
        split <;> rfl
      rw [fells.tree, stranded.tidied, Tree.left_of_gone (Tree.gone_of_nil nobody)]
      rfl
    · exact absurd (.inl List.mem_cons_self) free
  · rw [List.concat_eq_append] at leads recalls fixed
    obtain ⟨parent, toParent, kept⟩ := follow?_concat.mp leads
    obtain ⟨cause, refused⟩ : ∃ cause, Action.replace c [] world =
        .error (.error cause) (world.withoutViews c) := by
      refine replace_refused orderly.coherent.sound (orderly.coherent.agrees toParent) kept
        (orderly.alive toParent) fun present takes => fixed ?_
      exact ⟨front, slot, parent, _, rfl, ⟨toParent, kept, present⟩, takes⟩
    obtain ⟨change, asked⟩ := orderly.parentNode leads recalls
    refine ⟨cause, world.withoutViews c, ?_, ?_⟩
    · rw [Action.prune]
      simp only [Action.run_bind, Action.run_ofState, asked,
        orderly.replace_modifyViews toParent kept change, refused]
    · have alike := alike_withoutViews world c
      rw [tree, tree, alike.store, alike.value]

end Orderly

/-- Pruning a node takes away its slot and then, as long as they are left hollow, those of the nodes
around it, from the inside out. The nearest node that stays is mended if it is an `if`, its cursor is
the answer and is found where it was, and nothing else in the tree changes. All this needs is that
what goes is not the root, nor the root an `if` that loses both branches, and that the cursors on the
way remember no parents but those they have. Otherwise a parent that is remembered is the answer,
even if it is no node any more or another node has come between, and nothing but the slot goes. -/
theorem prune_leaves_nearest_survivor {world : World} (orderly : Orderly world) {c : CursorId}
    (leads : world.follow? 0 path = some c) (isNode : world.isNodeAt c = true) (below : path ≠ []) :
    (world.tree.ancestors path).map (world.follow? 0) =
      ((world.chain c).tail.filter world.isNodeAt).map some ∧
    (world.Recalls path → (∀ place ∈ world.tree.gone path, place ≠ []) →
      (world.tree.survivor? path = some [] → (world.tree.left path).isOf .ifStatement = true →
        (world.tree.left path).isReducible = false) →
      ∃ id after, Action.prune c world =
          .ok ((world.tree.survivor? path).bind (world.follow? 0)) after ∧
        Orderly after ∧ after.value 0 = world.value 0 ∧
        after.tree = (world.tree.left path).tidied id (world.tree.survivor? path) ∧
        ∀ {place}, world.tree.survivor? path = some place →
          ∃ d, world.follow? 0 place = some d ∧ after.follow? 0 place = some d) ∧
    ∀ parent, (world.cursor c).views.parent? = some (some parent) → world.isAlive parent = true →
      ∃ cs mid, Action.replace c [] world = .ok cs mid ∧
        mid.tree = world.tree.replaceAt path [] ∧
        (Action.isHollow mid.store (mid.value parent) = false →
          mid.store.isOf .ifStatement (mid.value parent) = false →
          Action.prune c world = .ok (some parent) mid) := by
  obtain ⟨_, here⟩ := Store.composite_of_isOf isNode
  have removable := orderly.removable leads below here
  refine ⟨orderly.ancestors_eq leads isNode, fun recalls slots branches => ?_,
    fun parent remembered alive => ?_⟩
  · obtain ⟨id, after, fells, ⟨root | ⟨survives, branch, reducible⟩, _⟩ | ⟨_, prunes, result⟩⟩ :=
      orderly.prune_ends leads recalls fun _ => removable
    · rcases List.mem_cons.mp root with same | root
      · exact absurd same.symm below
      · exact absurd rfl (slots [] root)
    · rw [branches survives branch] at reducible
      cases reducible
    · refine ⟨id, after, result, fells.orderly, fells.root, fells.tree, fun {place} survives => ?_⟩
      obtain ⟨rest, split⟩ := Tree.prefix_of_survivor? survives
      rw [← split, follow?_append] at leads
      obtain ⟨d, toD, _⟩ := Option.bind_eq_some_iff.mp leads
      exact ⟨d, toD, (prunes.stays survives).trans toD⟩
  · obtain ⟨cs, mid, removed, removes⟩ := orderly.remove removable id
    rw [modifyViews_id] at removed
    refine ⟨cs, mid, removed, removes.tree, fun firm plain => ?_⟩
    have asked : world.parentNode c = (some parent, world) := by
      rw [World.parentNode, remembered]
      exact if_pos alive
    rw [Action.prune]
    simp only [Action.run_bind, Action.run_ofState, asked, removed, Action.run_get, firm, plain]
    rfl

/-- `if (a) var b; else ;` -/
def declaredBranch : Document :=
  .nodeOf .program [("body", .array [.nodeOf .ifStatement [("test", .nameOf "a"),
    ("consequent", .nodeOf .variableDeclaration [("kind", .text "var"),
      ("declarations", .array [.nodeOf .variableDeclarator [("id", .nameOf "b")]])]),
    ("alternate", .nodeOf .emptyStatement [])]])]

/-- A statement whose type has been overwritten. -/
def formerStatement : Document :=
  .nodeOf .program [("body", .array [.object [("type", .text "Foo"),
    ("expression", .nameOf "a")]])]

/-- With its only declarator the declaration goes, and the `if` is turned around. But an expression
that remembers the statement it was in gives the cursor of that, although it is no node any more and
the nearest node is the program. -/
theorem pruned_declarator_turns_if :
    (let path : List SlotName :=
      [.key "body", .index 0, .key "consequent", .key "declarations", .index 0]
    let (c, world) := (planted declaredBranch).descend 0 path
    world.tree.gone path = [[.key "body", .index 0, .key "consequent"]] ∧
      ∃ id d after, Action.prune c world = .ok (some d) after ∧
        after.follow? 0 [.key "body", .index 0] = some d ∧
        after.tree = (world.tree.left path).tidied id (some [.key "body", .index 0])) ∧
    let path : List SlotName := [.key "body", .index 0, .key "expression"]
    let (c, world) := (planted formerStatement).descend 0 path
    let world := world.modifyViews c fun views => { views with parent? := some (some 2) }
    world.tree.survivor? path = some [] ∧ world.isNodeAt 2 = false ∧
      ∃ after, Action.prune c world = .ok (some 2) after := by
  constructor
  · intro path
    obtain ⟨orderly, fresh, leads, here, same⟩ := @descend_planted path declaredBranch rfl _ rfl
    have goes : (planted declaredBranch).tree.gone path =
        [[.key "body", .index 0, .key "consequent"]] := by decide +kernel
    have stays : (planted declaredBranch).tree.survivor? path = some [.key "body", .index 0] := by
      decide +kernel
    rw [← same] at goes stays
    obtain ⟨id, after, result, _, _, tree, follows⟩ := (prune_leaves_nearest_survivor orderly leads
      rfl (List.cons_ne_nil _ _)).2.1 (orderly.recalls fresh) (by rw [goes]; decide)
      (by rw [stays]; nofun)
    obtain ⟨d, before, still⟩ := follows stays
    rw [stays, Option.bind_some, before] at result
    rw [stays] at tree
    exact ⟨goes, id, d, after, result, still, tree⟩
  · intro path
    have orderly := (@descend_planted path formerStatement rfl _ rfl).1.modifyViews 3
      fun views => { views with parent? := some (some 2) }
    obtain ⟨_, mid, removed, _, result⟩ := (@prune_leaves_nearest_survivor path _ orderly 3 rfl rfl
      (List.cons_ne_nil _ _)).2.2 2 rfl (by decide +kernel)
    have firm : (match Action.replace 3 [] (((planted formerStatement).descend 0 path).2.modifyViews 3
          fun views => { views with parent? := some (some 2) }) with
        | .ok _ mid => !Action.isHollow mid.store (mid.value 2) &&
          !mid.store.isOf .ifStatement (mid.value 2)
        | .error _ _ => false) = true := by decide +kernel
    rw [removed, Bool.and_eq_true, Bool.not_eq_true', Bool.not_eq_true'] at firm
    exact ⟨by decide +kernel, rfl, mid, result firm.1 firm.2⟩

/-- Pruning fails without a change to the tree if the slot itself cannot be removed. Otherwise it
fails exactly when it comes to the root, and what has been removed by then stays removed. -/
theorem refused_prune_keeps_removals {world : World} (orderly : Orderly world)
    (fresh : Fresh world.Reachable world) {c : CursorId}
    (leads : world.follow? 0 path = some c) :
    (¬world.Removable path c → ∃ cause after,
      Action.prune c world = .error (.error cause) after ∧ after.tree = world.tree) ∧
    (world.Removable path c → world.tree.Stranded path → ∃ after,
      Action.prune c world = .error (.error .noParent) after ∧ after.tree = world.tree.left path ∧
        (world.isNodeAt c = true → after.tree ≠ world.tree)) ∧
    (world.Removable path c → ¬world.tree.Stranded path → ∃ remaining after,
      Action.prune c world = .ok remaining after) := by
  have recalls : world.Recalls path := orderly.recalls fresh
  refine ⟨orderly.prune_refused leads recalls, fun removable stranded => ?_,
    fun removable free => ?_⟩
  · obtain ⟨id, after, fells, ⟨_, result⟩ | ⟨free, _⟩⟩ :=
      orderly.prune_ends leads recalls fun _ => removable
    · refine ⟨after, result, fells.tree.trans (stranded.tidied id), fun isNode same => ?_⟩
      obtain ⟨_, here⟩ := Store.composite_of_isOf isNode
      have typed : (world.store.tree (world.value c)).type? ≠ none := by
        rw [Store.type?_tree (orderly.coherent.unshared_at leads here)]
        exact Option.isSome_iff_ne_none.mp (typeAt?_isSome_of_isNodeAt isNode)
      have below : path ≠ [] := by
        obtain ⟨_, _, _, _, rfl, _⟩ := removable
        simp
      have less := (@Tree.leaner_prune world.tree _ _ (Store.keyed_tree orderly.coherent.unshared)
        (orderly.coherent.at?_of_composite leads here) typed below id).2
      rw [Tree.prune_eq, ← fells.tree, same] at less
      exact Nat.lt_irrefl _ less
    · exact absurd stranded free
  · obtain ⟨_, after, _, ⟨stranded, _⟩ | ⟨_, _, result⟩⟩ :=
      orderly.prune_ends leads recalls fun _ => removable
    · exact absurd stranded free
    · exact ⟨_, after, result⟩

/-- A statement that is the root cannot go with its expression, but the expression is gone. -/
theorem pruned_expression_strands_root :
    let (c, world) := (planted (.object [("type", .text "ExpressionStatement"),
      ("expression", .object [("type", .text "ThisExpression")])])).descend 0 [.key "expression"]
    ∃ after, Action.prune c world = .error (.error .noParent) after ∧ after.tree ≠ world.tree := by
  obtain ⟨orderly, fresh, leads, here, same⟩ := @descend_planted [.key "expression"]
    (.object [("type", .text "ExpressionStatement"),
      ("expression", .object [("type", .text "ThisExpression")])]) rfl _ rfl
  have stranded : [] ∈ (planted (.object [("type", .text "ExpressionStatement"),
      ("expression", .object [("type", .text "ThisExpression")])])).tree.gone
        [.key "expression"] := by decide +kernel
  rw [← same] at stranded
  obtain ⟨after, result, _, changed⟩ := (refused_prune_keeps_removals orderly fresh leads).2.1
    (orderly.removable leads (List.cons_ne_nil _ _) here) (.inl (List.mem_cons_of_mem _ stranded))
  exact ⟨after, result, changed rfl⟩

end World

end CodeTree
