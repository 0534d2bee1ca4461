/-
What rounds of pruning leave of the statements. The rounds begin with a document in which every
statement has what it needs, and each of them fills in defaults and prunes a match, which both
leave the statements stable. A test may be pruned before the branches of its `if`, and when they
are gone as well, a statement without an expression is left; nothing else is ever left degenerate.
Where every test lasts, nothing at all is.
-/

import CodeTree.Proofs.Rounds
import CodeTree.Proofs.Upkeep

namespace CodeTree

variable {world : World} {store : Store} {value : Value} {document item : Document}
  {type : NodeType}

/-! ### Types without comments -/

/-- Where no comment is of the type and all numbers are finite, every statement is guarded. -/
theorem Outlook.guarded_of_quiet {α : Type} {outlook : Outlook α} {place : α}
    (quiet : type.includesComments = false)
    (finite : outlook.Everywhere (fun part => outlook.isInfinite part = false) place) :
    outlook.Everywhere (outlook.Guarded type) place := by
  have solid {part : α} (finite : outlook.isInfinite part = false) :
      outlook.isFleeting type part = false := by
    rw [isFleeting, finite, Bool.or_false]
    cases is : outlook.isOf type part with
    | false => rfl
    | true =>
      obtain ⟨own, typed, derives⟩ := (Option.any_eq_true _ _).mp is
      rw [Terrain.isOf, typed, Option.any_some, NodeType.isSubtypeOf_node derives quiet]
      rfl
  intro path part there
  have below := finite.part there
  refine ⟨fun _ key inner _ entry => ?_, fun _ list entry => ⟨?_, fun position item element => ?_⟩⟩
  · exact solid (below.inner entry [] inner rfl)
  · exact solid (below.inner entry [] list rfl)
  · exact solid ((below.inner entry).inner element [] item rfl)

/-- An `if` without another branch is not turned around, and needs no more than a test that
lasts. -/
theorem Outlook.lasting_of_straight {α : Type} {outlook : Outlook α} {place : α}
    (expression : outlook.has place "expression" (outlook.isFleeting type) = false)
    (straight : outlook.has place "alternate" (!outlook.isNull ·) = false)
    (test : outlook.isOf .ifStatement place = true →
      outlook.has place "test" (outlook.isLasting type) = true) : outlook.Lasting type place := by
  constructor
  · intro _ part entry
    rw [has, entry] at expression
    exact expression
  · intro isIf
    obtain ⟨tested, entry, lasts⟩ := has_iff.mp (test isIf)
    refine ⟨tested, entry, lasts, fun forked => ?_⟩
    cases straight.symm.trans forked

/-! ### Places of a document -/

namespace Document

variable {test : Document → Bool}

/-- What stands in a slot counts. -/
theorem count_inner_le {document next : Document} {name : SlotName}
    (entry : document.inner? name = some next) : next.count test ≤ document.count test := by
  cases document with
  | array items =>
    cases name with
    | key key => cases entry
    | index position =>
      rw [count, countItems_eq]
      exact Nat.le_add_left_of_le (List.single_le_sum (fun _ _ => Nat.zero_le _) _
        (List.mem_map_of_mem (List.mem_of_getElem? entry)))
  | object members =>
    cases name with
    | index position => cases entry
    | key key =>
      have found : (Assoc.ofList members).get? key = some next := entry
      rw [← Assoc.mem_entries, (Entries.perm_lasts members).mem_iff] at found
      rw [count, countMembers_eq]
      exact Nat.le_add_left_of_le (List.single_le_sum (fun _ _ => Nat.zero_le _) _
        (List.mem_map.mpr ⟨_, found, rfl⟩))
  | _ => cases name <;> cases entry

/-- Where nothing counts, no place passes the test. -/
theorem everywhere_of_count (nothing : document.count test = 0) :
    outlook.Everywhere (fun part => test part = false) document := by
  intro path part there
  induction path generalizing document with
  | nil =>
    cases there
    refine Bool.eq_false_iff.mpr fun passes => ?_
    have counted : (test part).toNat ≤ part.count test := by
      cases part with
      | array items => exact Nat.le_add_right _ _
      | object members => exact Nat.le_add_right _ _
      | _ => exact Nat.le_refl _
    rw [passes, nothing] at counted
    cases counted
  | cons name rest ih =>
    obtain ⟨next, entry, onward⟩ := Option.bind_eq_some_iff.mp there
    have less := @count_inner_le test _ _ _ entry
    exact ih (by omega) onward

end Document

namespace PruneAll

open World

/-! ### One round -/

/-- All statements in and below a value are stable. -/
def Stable (type : NodeType) (strict : Prop) (store : Store) (value : Value) : Prop :=
  store.outlook.Everywhere (store.outlook.Stable type strict) value

section Stable

variable {strict : Prop}

theorem stable_tree (unshared : store.Unshared value) :
    Tree.outlook.Everywhere (Tree.outlook.Stable type strict) (store.tree value) ↔
      Stable type strict store value := by
  constructor
  · exact store.alike_tree.symm.everywhere_stable ⟨unshared, rfl⟩ type
  · exact store.alike_tree.everywhere_stable ⟨unshared, rfl⟩ type

theorem stable_of_bare (bare : store.Bare value) : store.outlook.Stable type strict value := by
  refine Outlook.stable_of_untyped type strict ?_
  exact (store.type?_terrain value).trans bare.type?

/-- What is filled in leaves the statements stable. -/
theorem stable_filled {before after : Store} (filled : before.Filled after)
    (whole : before.Whole value) (stable : Stable type strict before value) :
    Stable type strict after value := by
  intro path part there
  rw [Store.at?_outlook] at there
  rcases filled.part?_of_after whole there with stood | ⟨bare, _⟩
  · exact filled.stable (whole.part stood)
      (stable path part ((before.at?_outlook value path).trans stood))
  · exact stable_of_bare bare

/-- Visits and the pruning of matches leave the statements stable. -/
theorem lasts_stable : Lasts type (Tree.outlook.Everywhere (Tree.outlook.Stable type strict)) where
  tour {before after} orderly tour stable := by
    refine (stable_tree tour.orderly.coherent.unshared).mpr ?_
    rw [tour.tours.value orderly.coherent.present]
    exact stable_filled tour.tours.filled orderly.whole
      ((stable_tree orderly.coherent.unshared).mp stable)
  prune {tree old path} keyed untyped below there isType stable fresh := by
    -- What is pruned is of the type, so that it is no test that was to last.
    have unsteady : Tree.outlook.isLasting type old = false := by
      rw [Outlook.isLasting, Tree.isOf_outlook, Tree.isOf_outlook, isType, Bool.not_true,
        Bool.and_false]
    have target : old.isNode = true ∨ Tree.outlook.isFleeting type old = true := by
      cases node : old.isNode with
      | true => exact .inl rfl
      | false =>
        right
        rw [Outlook.isFleeting, Tree.isOf_outlook, Tree.isOf_outlook, isType,
          show old.isOf .node = false from node]
        rfl
    have part (place : List SlotName) (part : Tree) (stands : tree.at? place = some part) :=
      stable place part ((Tree.at?_outlook _ place).trans stands)
    exact Tree.stable_prune keyed untyped below there (Tree.type?_ne_none isType) unsteady target
      (fun place inner stands => (part place inner stands).firm)
      (fun place inner stands _ => (part place inner stands).whole) fresh

end Stable

/-! ### From a document to a document -/

section Document

variable {strict : Prop}

/-- The holder of a document with stable statements has stable statements. -/
theorem stable_heldRoot (loaded : Store.Loaded document .empty (value, store))
    (stable : Document.outlook.Everywhere (Document.outlook.Stable type strict) document) :
    Tree.outlook.Everywhere (Tree.outlook.Stable type strict) (heldRoot store value).tree := by
  have intact : store.Intact value := loaded.brings.intact value List.mem_cons_self
  have inStore : Stable type strict store value :=
    store.alike_holds.everywhere_stable loaded.holds type stable
  rw [tree_heldRoot intact]
  refine Tree.everywhere_object (by simp) (Outlook.stable_of_untyped type strict rfl) ?_
  exact List.forall_mem_singleton.mpr ((stable_tree intact.unshared).mpr inStore)

/-- What stands at the root when the rounds end is read back as a document without what has been
lost. -/
theorem whole_document (orderly : Orderly world) (stands : world.Stands [.key "root"] 1)
    (stable : Stable type strict world.store (world.value 0)) :
    Document.outlook.Everywhere (Document.outlook.Whole strict)
      (world.store.document (world.value 1)) := by
  have whole := stands.whole orderly
  have stableRoot : Stable type strict world.store (world.value 1) := by
    by_cases composite : ∃ id, world.value 1 = .composite id
    · obtain ⟨id, here⟩ := composite
      have there := orderly.coherent.part_of_follow (stands.leads here) here
      rw [← here] at there
      exact stable.part ((world.store.at?_outlook _ _).trans there)
    · have bare : world.store.Bare (world.value 1) := .inl fun id here => composite ⟨id, here⟩
      refine .mk (stable_of_bare bare) fun name next entry => ?_
      cases (bare.inner? name).symm.trans entry
  have both : world.store.terrain.Everywhere (fun part => world.store.Whole part ∧
      world.store.outlook.Stable type strict part) (world.value 1) := by
    intro path part there
    refine ⟨?_, stableRoot path part there⟩
    exact whole.part ((world.store.at?_outlook _ path).symm.trans there)
  refine world.store.similar_documentTo.symm.everywhere
    ⟨_, Store.Unshared.within (stands.unshared orderly), rfl⟩ ?_ both
  rintro part _ ⟨depth, within, rfl⟩ ⟨wholePart, stablePart⟩
  exact Store.whole_documentTo within wholePart stablePart

end Document

/-- Pruning all nodes of a type from a document whose statements all have what they need leaves
no statement without it but statements of an expression. These were an `if` that lost its test and
then its branches: if the tests last, there are none. Comments may not stand in the place of what
a statement needs. Only an object whose type is unknown makes pruning fail. -/
theorem remnants_lack_only_expressions (type : NodeType) {document : Document}
    (proper : document.isProper = true)
    (finite : Document.outlook.Everywhere (fun part => Document.outlook.isInfinite part = false)
      document)
    (sound : Document.outlook.Everywhere (fun part => Document.outlook.isDegenerate part = false)
      document)
    (guarded : type.includesComments = true →
      Document.outlook.Everywhere (Document.outlook.Guarded type) document) :
    (∃ pruned tree, ofDocument type document = .ok (pruned, tree) ∧
      Document.outlook.Everywhere (fun part => Document.outlook.isDegenerate part = true →
        Document.outlook.isOf .expressionStatement part = true) tree ∧
      (Document.outlook.Everywhere (Document.outlook.Lasting type) document →
        Document.outlook.Everywhere (fun part => Document.outlook.isDegenerate part = false)
          tree)) ∨
    ∃ shown, ofDocument type document = .error (.error (.unrecognizedType shown)) ∧
      0 < document.count Document.terrain.isUnknown := by
  -- To be strict is to ask that the tests of the document last.
  have stable : Document.outlook.Everywhere (Document.outlook.Stable type
      (Document.outlook.Everywhere (Document.outlook.Lasting type) document)) document := by
    have safe : Document.outlook.Everywhere (Document.outlook.Guarded type) document := by
      cases quiet : type.includesComments with
      | true => exact guarded quiet
      | false => exact Outlook.guarded_of_quiet quiet finite
    intro path part there
    refine ⟨⟨safe path part there, fun lasting => lasting path part there⟩, ?_⟩
    refine Outlook.whole_iff.mpr fun degenerate => ?_
    cases (sound path part there).symm.trans degenerate
  rcases ofDocument_cases type proper lasts_stable (stable_heldRoot · stable) with
    ⟨pruned, world, ended, orderly, stands, _, _, _, last⟩ | refused
  · have whole := whole_document orderly stands ((stable_tree orderly.coherent.unshared).mp last)
    refine .inl ⟨pruned, _, ended, ?_, ?_⟩
    · intro path part there degenerate
      exact (Outlook.whole_iff.mp (whole path part there) degenerate).2
    · intro lasting path part there
      refine Bool.eq_false_iff.mpr fun degenerate => ?_
      exact (Outlook.whole_iff.mp (whole path part there) degenerate).1 lasting
  · exact .inr refused

/-- `if (test) b;` -/
def oneBranch (test : Document) : Document :=
  .nodeOf .program [("body", .array [.nodeOf .ifStatement [("test", test),
    ("consequent", .nodeOf .expressionStatement [("expression", .nameOf "b")])]])]

/-- `if (a) b;` -/
def namedTest : Document :=
  oneBranch (.nameOf "a")

/-- `if (this) b;` -/
def lastingTest : Document := oneBranch (.nodeOf .thisExpression [])

/-- Whether the first statement of a program that was pruned is degenerate. -/
def leavesDegenerate : Except (Halt VisitError) (Nat × Document) → Bool
  | .ok (_, tree) =>
    (Document.outlook.at? tree [.key "body", .index 0]).any Document.outlook.isDegenerate
  | .error _ => false

/-- A test that is pruned leaves a degenerate statement when the branch is pruned as well, and a
test that lasts does not. -/
theorem pruned_test_leaves_statement :
    (∃ pruned tree, ofDocument .identifier namedTest = .ok (pruned, tree) ∧
      Document.outlook.Everywhere (fun part => Document.outlook.isDegenerate part = true →
        Document.outlook.isOf .expressionStatement part = true) tree ∧
      ¬Document.outlook.Everywhere (fun part => Document.outlook.isDegenerate part = false) tree) ∧
    ∃ pruned tree, ofDocument .identifier lastingTest = .ok (pruned, tree) ∧
      Document.outlook.Everywhere (fun part => Document.outlook.isDegenerate part = false)
        tree := by
  constructor
  · rcases @remnants_lack_only_expressions .identifier namedTest rfl
      (Document.everywhere_of_count rfl) (Document.everywhere_of_count rfl)
      (fun comments => absurd comments (by decide)) with
      ⟨pruned, tree, ended, only, _⟩ | ⟨_, _, positive⟩
    · refine ⟨pruned, tree, ended, only, fun none => ?_⟩
      have left : leavesDegenerate (ofDocument .identifier namedTest) = true := by decide +kernel
      rw [ended] at left
      obtain ⟨part, there, degenerate⟩ := (Option.any_eq_true _ _).mp left
      cases (none _ part there).symm.trans degenerate
    · exact absurd positive (Nat.lt_irrefl 0)
  · rcases @remnants_lack_only_expressions .identifier lastingTest rfl
      (Document.everywhere_of_count rfl) (Document.everywhere_of_count rfl)
      (fun comments => absurd comments (by decide)) with
      ⟨pruned, tree, ended, _, lasting⟩ | ⟨_, _, positive⟩
    · refine ⟨pruned, tree, ended, lasting fun path part there => ?_⟩
      have solid : Document.outlook.Everywhere (fun part =>
          (Document.outlook.has part "expression" (Document.outlook.isFleeting .identifier) ||
            Document.outlook.has part "alternate" (!Document.outlook.isNull ·) ||
            (Document.outlook.isOf .ifStatement part &&
              !Document.outlook.has part "test" (Document.outlook.isLasting .identifier))) = false)
          lastingTest := Document.everywhere_of_count rfl
      have here := solid path part there
      simp only [Bool.or_eq_false_iff, Bool.and_eq_false_imp, Bool.not_eq_false'] at here
      exact Outlook.lasting_of_straight here.1.1 here.1.2 here.2
    · exact absurd positive (Nat.lt_irrefl 0)

end PruneAll

end CodeTree
