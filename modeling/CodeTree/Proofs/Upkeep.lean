/-
Statements in the upkeep of pruning. A removal touches the container that the removed tree stood
in, and what is left of the container can stand for it. So a statement can lose what it needs in
two ways only: it is the container itself, or the container is the array of its declarations. If a
node has been removed, either is the parent node that pruning looks after next; if a comment has, a
guarded statement has lost nothing. A mended `if` has its branch, or is a statement of its test,
which stays if it was lasting.
-/

import CodeTree.Proofs.Meaning
import CodeTree.Proofs.StandIns

namespace CodeTree

variable {tree container new node old part : Tree} {place : List SlotName} {type : NodeType}
  {name slot : SlotName}

namespace Tree

/-! ### Removals -/

theorem isOf_outlook_eq_false {own other : NodeType} (typed : tree.type? = some own)
    (concrete : other.isAbstract = false) (different : own ≠ other) :
    outlook.isOf other tree = false :=
  (isOf_outlook _ _).trans (isOf_eq_false concrete typed different)

/-- What is no node is no statement. -/
theorem stable_of_not_isNode (type : NodeType) (strict : Prop) (different : tree.isNode = false) :
    outlook.Stable type strict tree := by
  have never {own : NodeType} (concrete : own.isAbstract = false)
      (derives : own.isSubtypeOf .node = true) : outlook.isOf own tree = false := by
    rw [isOf_outlook]
    refine Bool.eq_false_iff.mpr fun is => ?_
    rw [isNode, isOf, (isOf_iff concrete).mp is, Option.any_some, derives] at different
    cases different
  exact Outlook.stable_of_other type strict (never rfl (by decide)) (never rfl (by decide))
    (never rfl (by decide))

section Removed

/-- What is left of a container has been in it, in another slot than the one that was cleared. -/
theorem inner?_of_removed (there : (container.exchangeSlot slot []).inner? name = some part) :
    ∃ place, place ≠ slot ∧ container.inner? place = some part ∧
      (∀ key, name = .key key → place = name) ∧
      ∀ position, name = .index position → ∃ other, place = .index other := by
  cases name with
  | key key =>
    rw [inner?_key_removed] at there
    split at there
    · cases there
    · rename_i different
      exact ⟨.key key, fun same => different same.symm, there, fun _ _ => rfl, nofun⟩
  | index position =>
    cases container with
    | leaf value => cases slot <;> cases there
    | object id members => cases slot <;> cases there
    | array id items =>
      cases slot with
      | key characters =>
        exact ⟨.index position, nofun, there, nofun, fun _ _ => ⟨position, rfl⟩⟩
      | index cleared =>
        have there : (splice cleared 1 [] items)[position]? = some part := there
        rw [splice, List.append_nil, ← List.eraseIdx_eq_take_drop_succ, List.getElem?_eraseIdx]
          at there
        split at there
        · exact ⟨.index position, by simpa using by omega, there, nofun, fun _ _ => ⟨_, rfl⟩⟩
        · exact ⟨.index (position + 1), by simpa using by omega, there, nofun, fun _ _ => ⟨_, rfl⟩⟩

/-- Only an array is emptied, of an element. -/
theorem index_of_emptied (entry : container.inner? slot = some old)
    (emptied : (container.exchangeSlot slot []).isEmpty = true) :
    container.type? = none ∧ ∃ position, slot = .index position := by
  cases container with
  | leaf value => cases entry
  | object id members => cases slot <;> cases emptied
  | array id items =>
    refine ⟨rfl, ?_⟩
    cases slot with
    | key characters => cases entry
    | index position => exact ⟨position, rfl⟩

variable {strict : Prop} (entry : container.inner? slot = some old)

include entry

/-- What is in the slots of a container is what was there, but for what was removed. -/
theorem follows_removed (wordless : old.text? = none)
    (unsteady : outlook.isLasting type old = false) :
    Outlook.Follows outlook outlook type Eq (· = old) container (container.exchangeSlot slot []) where
  isOf own := by rw [isOf_outlook, isOf_outlook, isOf, isOf, type?_removed entry wordless]
  kept {key was} stood := by
    show _ ∨ ∃ part, (container.exchangeSlot slot []).inner? (.key key) = some part ∧ was = part
    rw [inner?_key_removed]
    split
    · rename_i same
      subst same
      exact .inl (Option.some.inj (stood.symm.trans entry))
    · exact .inr ⟨was, stood, rfl⟩
  gone {was} same := by
    subst same
    exact ⟨unsteady, wordless⟩
  items {position item} there := by
    obtain ⟨place, _, stood, _, indexed⟩ := inner?_of_removed there
    obtain ⟨other, rfl⟩ := indexed position rfl
    exact ⟨other, item, stood, rfl⟩

variable (wordless : old.text? = none) (unsteady : outlook.isLasting type old = false)

include wordless unsteady

/-- A container that has lost something can stand for what it was. -/
theorem passes_removed : Passes type container (container.exchangeSlot slot []) := by
  have follows := follows_removed entry wordless unsteady
  refine follows.standsIn (resembles_of_value (value_exchangeSlot ..) follows.isOf) ?_
  rintro was _ rfl
  exact (Outlook.StandsIn.refl was).toResembles

theorem firm_removed (firm : outlook.Firm type strict container) :
    outlook.Firm type strict (container.exchangeSlot slot []) := by
  refine (follows_removed entry wordless unsteady).firm ?_
    (fun {_ part} there => .inl ⟨part, inner?_removed there, rfl⟩) firm
  rintro was _ rfl
  exact .refl was

/-- A firm container does not miss what was fleeting. -/
theorem whole_removed (firm : outlook.Firm type strict container)
    (fleeting : outlook.isFleeting type old = true) (whole : outlook.Whole strict container) :
    outlook.Whole strict (container.exchangeSlot slot []) := by
  refine (follows_removed entry wordless unsteady).whole (fun same => same ▸ fleeting) ?_ ?_ firm
    whole
  · rintro _ _ _ _ rfl _ nothing
    exact nothing
  · rintro _ _ _ _ _ rfl nothing
    exact nothing

end Removed

section Exchanged

variable {strict : Prop} {front : List SlotName} (there : tree.at? (front ++ [slot]) = some old)
  (typed : old.type? ≠ none) (unsteady : outlook.isLasting type old = false)
  (firm : ∀ place part, tree.at? place = some part → outlook.Firm type strict part)

/-- What is left below a container stood elsewhere below it. -/
theorem at?_of_removed {next : Tree} {rest : List SlotName}
    (reached : tree.at? front = some container)
    (found : (container.exchangeSlot slot []).at? (name :: rest) = some next) :
    ∃ place, place ≠ front ++ [slot] ∧ tree.at? place = some next := by
  obtain ⟨inner, stands, onward⟩ := Option.bind_eq_some_iff.mp found
  obtain ⟨step, different, stood, _⟩ := inner?_of_removed stands
  refine ⟨front ++ step :: rest, fun same => ?_, ?_⟩
  · exact different (List.cons.inj (List.append_cancel_left same)).1
  · rw [at?_append, reached, Option.bind_some, at?, stood, Option.bind_some, onward]

include there typed unsteady firm

/-- Everything stays firm when something is removed that was not to last. -/
theorem firm_exchange (found : (tree.exchange front slot []).at? place = some part) :
    outlook.Firm type strict part := by
  obtain ⟨container, reached, entry⟩ := at?_concat.mp there
  have wordless := text?_of_typed typed
  rw [exchange, reached, Option.elim] at found
  rcases at?_graft_cases reached found with
    ⟨rest, rfl, inside⟩ | ⟨name, rest, node, rfl, stands, above, rfl⟩ | ⟨stood, _⟩
  · cases rest with
    | nil =>
      cases inside
      exact firm_removed entry wordless unsteady (firm front container reached)
    | cons name rest =>
      obtain ⟨_, _, stood⟩ := at?_of_removed reached inside
      exact firm _ part stood
  · exact firm_graft (passes_removed entry wordless unsteady) above (firm place node stands)
  · exact firm place part stood

/-- Everything stays whole except perhaps the parent node of what was removed. -/
theorem whole_exchange (target : old.isNode = true ∨ outlook.isFleeting type old = true)
    (others : ∀ place part, tree.at? place = some part → place ≠ front ++ [slot] →
      outlook.Whole strict part) (found : (tree.exchange front slot []).at? place = some part) :
    outlook.Whole strict part ∨ tree.parentNode? (front ++ [slot]) = some place := by
  obtain ⟨container, reached, entry⟩ := at?_concat.mp there
  have wordless := text?_of_typed typed
  rw [exchange, reached, Option.elim] at found
  rcases at?_graft_cases reached found with
    ⟨rest, rfl, inside⟩ | ⟨name, rest, node, rfl, stands, above, rfl⟩ | ⟨stood, apart⟩
  · cases rest with
    | cons name rest =>
      obtain ⟨_, different, stood⟩ := at?_of_removed reached inside
      exact .inl (others _ part stood different)
    | nil =>
      cases inside
      rw [List.append_nil]
      rcases target with node | fleeting
      · by_cases outer : container.isNode = true
        · refine .inr (parentNode?_slot ?_ ?_)
          · rw [nodeAt, there, Option.any_some, node]
          · rw [nodeAt, reached, Option.any_some, outer]
        · refine .inl (stable_of_not_isNode type strict ?_).whole
          rw [isNode, isOf, type?_removed entry wordless]
          exact Bool.eq_false_iff.mpr outer
      · exact .inl (whole_removed entry wordless unsteady (firm front container reached) fleeting
          (others front container reached (by simp)))
  · by_cases emptied : node.isOf .variableDeclaration = true ∧ name = .key "declarations" ∧
        rest = [] ∧ (container.exchangeSlot slot []).isEmpty = true
    · obtain ⟨declares, rfl, rfl, emptied⟩ := emptied
      obtain ⟨untyped, position, rfl⟩ := index_of_emptied entry emptied
      rw [List.append_assoc, List.singleton_append] at there ⊢
      rcases target with isNode | fleeting
      · refine .inr (parentNode?_element ?_ ?_ ?_)
        · rw [nodeAt, there, Option.any_some, isNode]
        · rw [nodeAt, reached, Option.any_some, Tree.isNode, isOf, untyped]
          rfl
        · exact nodeAt_of_type? stands ((isOf_iff rfl).mp declares) (by decide)
      · obtain ⟨_, listed, ended⟩ := Option.bind_eq_some_iff.mp above
        cases ended
        rw [← isOf_outlook] at declares
        have solid := ((firm place node stands).guarded.declarations declares container listed).2
          position old entry
        rw [solid] at fleeting
        cases fleeting
    · refine .inl (whole_graft (passes_removed entry wordless unsteady) above ?_
        (firm place node stands) (others place node stands (by simp)))
      intro declares named ended nothing
      exact absurd ⟨declares, named, ended, nothing⟩ emptied
  · refine .inl (others place part stood ?_)
    rintro rfl
    exact apart (List.prefix_append front [slot])

end Exchanged

/-! ### Mended `if`s -/

/-- A statement can stand for an `if`. -/
theorem passes_of_type? (type : NodeType) (before : old.type? = some .ifStatement)
    (after : new.type? = some .ifStatement ∨ new.type? = some .expressionStatement) :
    Passes type old new := by
  have typed : new.type? ≠ none := by
    rcases after with after | after <;> rw [after] <;> exact Option.some_ne_none _
  have node : outlook.isOf .node new = true := by
    rw [isOf_outlook, isOf]
    rcases after with after | after <;> rw [after] <;> decide
  have different : outlook.isNegation new = false := by
    rw [Outlook.isNegation]
    rcases after with after | after <;>
      rw [isOf_outlook_eq_false after rfl (by decide), Bool.false_and]
  have plain : outlook.isNegation old = false := by
    rw [Outlook.isNegation, isOf_outlook_eq_false before rfl (by decide), Bool.false_and]
  -- An `if` is no expression.
  have fleets : outlook.isLasting type old = false := by
    rw [Outlook.isLasting, isOf_outlook, isOf, before, show Option.any _ _ = false by decide,
      Bool.false_and]
  obtain ⟨_, _, rfl⟩ := exists_object_of_type before
  obtain ⟨_, _, rfl⟩ := exists_object typed
  refine ⟨⟨fun fleeting => ?_, fun lasting => ?_, rfl, rfl⟩, fun entry => (by cases entry),
    fun negation => ?_, fun negation => ?_⟩
  · rw [Outlook.isFleeting, node, Bool.not_true, Bool.and_false, Bool.false_or] at fleeting
    cases fleeting
  · cases fleets.symm.trans lasting
  · cases different.symm.trans negation
  · cases plain.symm.trans negation

theorem everywhere_leaf (type : NodeType) (strict : Prop) (value : Value) :
    outlook.Everywhere (outlook.Stable type strict) (leaf value) :=
  .mk (Outlook.stable_of_untyped type strict rfl) nofun

theorem has_of_member {key : String} (present : (node.member key).isNull = false) :
    outlook.has node key (!outlook.isNull ·) = true := by
  rw [member] at present
  cases entry : node.inner? (.key key) with
  | none =>
    rw [entry] at present
    cases present
  | some part =>
    rw [entry] at present
    exact Outlook.has_iff.mpr ⟨part, entry, (Bool.not_eq_true' _).mpr present⟩

theorem inner?_turned (typed : node.type? = some .ifStatement) (fresh : CompositeId) (key : String) :
    (node.turned fresh).inner? (.key key) =
      if key = "alternate" then none
      else if key = "consequent" then some (node.member "alternate")
      else if key = "test" then some (negation fresh (node.member "test"))
      else node.inner? (.key key) := by
  obtain ⟨id, members, rfl⟩ := exists_object_of_type typed
  rw [turned, inner?, Entries.lookup_drop, Entries.lookup_put, Entries.lookup_put]
  rfl

/-- What lasts is a node, and no number. -/
theorem isFleeting_of_isLasting (lasting : outlook.isLasting type tree = true) :
    outlook.isFleeting type tree = false := by
  rw [Outlook.isLasting, isOf_outlook, isOf_outlook, Bool.and_eq_true, Bool.not_eq_true'] at lasting
  obtain ⟨_, _, rfl⟩ := exists_object (type?_ne_none lasting.1)
  rw [Outlook.isFleeting, isOf_outlook, lasting.2]
  rfl

theorem isNull_of_isLasting (lasting : outlook.isLasting type tree = true) :
    (!outlook.isNull tree) = true := by
  rw [Outlook.isLasting, isOf_outlook, Bool.and_eq_true] at lasting
  obtain ⟨_, _, rfl⟩ := exists_object (type?_ne_none lasting.1)
  rfl

/-- The negation of a test lasts if the test can be negated so that it does. -/
theorem isLasting_negation {test : Tree} (apart : NodeType.unaryExpression.isSubtypeOf type = false)
    (taken : outlook.isNegation test = true →
      outlook.has test "argument" (outlook.isLasting type) = true) (fresh : CompositeId) :
    outlook.isLasting type (negation fresh test) = true := by
  rw [negation]
  split
  · rename_i unwrapped
    rw [Bool.and_eq_true, beq_iff_eq] at unwrapped
    have negation : outlook.isNegation test = true := by
      rw [Outlook.isNegation, isOf_outlook, unwrapped.1, Bool.true_and]
      show ((test.inner? (.key "operator")).bind text?).all (· == "!") = true
      have operator := unwrapped.2
      rw [member] at operator
      cases entry : test.inner? (.key "operator") with
      | none => rfl
      | some part =>
        rw [entry, Option.getD_some] at operator
        rw [Option.bind_some, operator]
        rfl
    obtain ⟨argument, found, lasts⟩ := Outlook.has_iff.mp (taken negation)
    have found : test.inner? (.key "argument") = some argument := found
    rw [member, found, Option.getD_some]
    exact lasts
  · show (NodeType.unaryExpression.isSubtypeOf .expression &&
      !NodeType.unaryExpression.isSubtypeOf type) = true
    rw [apart]
    decide

section Mended

variable {strict : Prop} (typed : node.type? = some .ifStatement)
  (firm : outlook.Firm type strict node) (below : ∀ name next, node.inner? name = some next →
    outlook.Everywhere (outlook.Stable type strict) next) (fresh : CompositeId)

include below

theorem everywhere_member (key : String) :
    outlook.Everywhere (outlook.Stable type strict) (node.member key) := by
  rw [member]
  cases entry : node.inner? (.key key) with
  | none => exact everywhere_leaf type strict .null
  | some part => exact below _ part entry

theorem everywhere_negation :
    outlook.Everywhere (outlook.Stable type strict) (negation fresh (node.member "test")) := by
  have tested := everywhere_member below "test"
  rw [negation]
  split
  · exact everywhere_member (fun name next entry => tested.inner entry) "argument"
  · have leaf := everywhere_leaf type strict
    refine everywhere_object (by simp) (Outlook.stable_of_other type strict rfl rfl rfl) ?_
    simp only [List.forall_mem_cons]
    exact ⟨leaf _, leaf _, tested, leaf _, List.forall_mem_nil _⟩

include typed firm

/-- The statement of a test is stable, since a test that lasts is there. -/
theorem everywhere_testStatement :
    outlook.Everywhere (outlook.Stable type strict) (node.testStatement fresh) := by
  have states : (node.testStatement fresh).type? = some .expressionStatement := rfl
  have isIf : outlook.isOf .ifStatement node = true :=
    (isOf_outlook _ node).trans ((isOf_iff rfl).mpr typed)
  have lasts (needed : strict) : outlook.isLasting type (node.member "test") = true := by
    obtain ⟨test, there, stays, _⟩ := (firm.lasting needed).test isIf
    have there : node.inner? (.key "test") = some test := there
    rw [member, there, Option.getD_some]
    exact stays
  have notIf := @isOf_outlook_eq_false _ _ .ifStatement states rfl (by decide)
  have notDeclaration := @isOf_outlook_eq_false _ _ .variableDeclaration states rfl (by decide)
  refine everywhere_object (by simp) ⟨⟨⟨fun is => ?_, fun is => ?_⟩, fun needed =>
    ⟨?_, fun is => ?_⟩⟩, ⟨fun needed _ => ?_, fun is => ?_, fun is => ?_⟩⟩ ?_
  · cases notIf.symm.trans is
  · cases notDeclaration.symm.trans is
  · rintro _ _ ⟨⟩
    exact isFleeting_of_isLasting (lasts needed)
  · cases notIf.symm.trans is
  · exact Outlook.has_iff.mpr ⟨_, rfl, isNull_of_isLasting (lasts needed)⟩
  · cases notIf.symm.trans is
  · cases notDeclaration.symm.trans is
  · simp only [List.forall_mem_cons]
    exact ⟨everywhere_leaf type strict _, everywhere_member below "test",
      List.forall_mem_nil _⟩

/-- An `if` that has been turned around has its branch. -/
theorem everywhere_turned (forked : (node.member "alternate").isNull = false) :
    outlook.Everywhere (outlook.Stable type strict) (node.turned fresh) := by
  have isIf : outlook.isOf .ifStatement node = true :=
    (isOf_outlook _ node).trans ((isOf_iff rfl).mpr typed)
  obtain ⟨alternate, there, present⟩ := Outlook.has_iff.mp (has_of_member forked)
  have there : node.inner? (.key "alternate") = some alternate := there
  have branch : node.member "alternate" = alternate := by rw [member, there, Option.getD_some]
  have inner (key : String) := inner?_turned typed fresh key
  rw [branch] at inner
  have turned := type?_turned typed fresh
  have notExpression := @isOf_outlook_eq_false _ _ .expressionStatement turned rfl (by decide)
  have notDeclaration := @isOf_outlook_eq_false _ _ .variableDeclaration turned rfl (by decide)
  refine .mk ⟨⟨⟨fun _ key part named entry => ?_, fun is => ?_⟩, fun needed =>
    ⟨fun is => ?_, fun _ => ?_⟩⟩, ⟨fun _ is => ?_, fun _ => ?_, fun is => ?_⟩⟩ ?_
  · rcases named with rfl | rfl
    · cases (inner "consequent").symm.trans entry
      exact firm.guarded.branch isIf "alternate" alternate (.inr rfl) there
    · cases (inner "alternate").symm.trans entry
  · cases notDeclaration.symm.trans is
  · cases notExpression.symm.trans is
  · obtain ⟨test, tested, stays, negated⟩ := (firm.lasting needed).test isIf
    have tested : node.inner? (.key "test") = some test := tested
    obtain ⟨apart, taken⟩ := negated (Outlook.has_iff.mpr ⟨alternate, there, present⟩)
    refine ⟨negation fresh test, ?_, isLasting_negation apart taken fresh, fun again => ?_⟩
    · refine (inner "test").trans ?_
      rw [member, tested]
      rfl
    · obtain ⟨part, entry, _⟩ := Outlook.has_iff.mp again
      cases (inner "alternate").symm.trans entry
  · cases notExpression.symm.trans is
  · exact Outlook.has_iff.mpr ⟨alternate, inner "consequent", present⟩
  · cases notDeclaration.symm.trans is
  · intro name next entry
    have entry : (node.turned fresh).inner? name = some next := entry
    cases name with
    | index position =>
      obtain ⟨_, _, rfl⟩ := exists_object_of_type typed
      cases entry
    | key key =>
      rw [inner] at entry
      split at entry
      · cases entry
      · split at entry
        · cases entry
          exact below _ alternate there
        · split at entry
          · cases entry
            exact everywhere_negation below fresh
          · exact below _ next entry

end Mended

section Mending

variable {strict : Prop} {above : List SlotName} (there : tree.at? above = some node)
  (firm : ∀ place part, tree.at? place = some part → outlook.Firm type strict part)
  (others : ∀ place part, tree.at? place = some part → place ≠ above → outlook.Whole strict part)

include there firm others

/-- A stable tree that can stand for what it replaces makes everything stable. -/
theorem stable_graft (passes : Passes type node new) (filled : new.isEmpty = false)
    (stable : outlook.Everywhere (outlook.Stable type strict) new) :
    outlook.Everywhere (outlook.Stable type strict) (tree.graft above new) := by
  intro place part found
  rw [at?_outlook] at found
  rcases at?_graft_cases there found with
    ⟨rest, rfl, inside⟩ | ⟨name, rest, around, rfl, stands, inner, rfl⟩ | ⟨stood, apart⟩
  · exact stable rest part ((at?_outlook new rest).trans inside)
  · refine ⟨firm_graft passes inner (firm place around stands), whole_graft passes inner ?_
      (firm place around stands) (others place around stands (by simp))⟩
    intro _ _ _ empty
    cases filled.symm.trans empty
  · refine ⟨firm place part stood, others place part stood ?_⟩
    rintro rfl
    exact apart (List.prefix_refl place)

/-- Mending makes everything stable if only the `if` was not. -/
theorem stable_mendIf (keyed : tree.Keyed) (typed : node.type? = some .ifStatement)
    (below : above ≠ []) (fresh : CompositeId) :
    outlook.Everywhere (outlook.Stable type strict) (mendIf fresh above node tree) := by
  have inside : ∀ name next, node.inner? name = some next →
      outlook.Everywhere (outlook.Stable type strict) next := by
    intro name next entry rest part deeper
    have stands : tree.at? (above ++ name :: rest) = some part := by
      rw [at?_append, there, Option.bind_some, at?, entry, Option.bind_some, ← at?_outlook, deeper]
    exact ⟨firm _ part stands, others _ part stands (by simp)⟩
  have firmHere := firm above node there
  rw [mendIf]
  split
  · split
    · rw [show tree.replaceAt above [node.testStatement fresh] =
        tree.graft above (node.testStatement fresh) by
          obtain ⟨front, slot, rfl⟩ := List.eq_nil_or_concat above |>.resolve_left below
          rw [List.concat_eq_append] at there ⊢
          rw [replaceAt_concat, exchange_single keyed there]]
      exact stable_graft there firm others (passes_of_type? type typed (.inr rfl)) rfl
        (everywhere_testStatement typed firmHere inside fresh)
    · rename_i forked
      have turned := type?_turned typed fresh
      refine stable_graft there firm others (passes_of_type? type typed (.inl turned)) ?_
        (everywhere_turned typed firmHere inside fresh (Bool.eq_false_iff.mpr forked))
      obtain ⟨_, _, object⟩ := exists_object_of_type turned
      rw [object]
      rfl
  · rename_i present
    intro place part stands
    rw [at?_outlook] at stands
    refine ⟨firm place part stands, ?_⟩
    by_cases here : place = above
    · -- The `if` still has its first branch.
      subst here
      cases there.symm.trans stands
      refine ⟨fun _ is => ?_, fun _ => ?_, fun is => ?_⟩
      · cases (isOf_outlook_eq_false typed rfl (by decide)).symm.trans is
      · exact has_of_member (Bool.eq_false_iff.mpr present)
      · cases (isOf_outlook_eq_false typed rfl (by decide)).symm.trans is
    · exact others place part stands here

end Mending

/-! ### Pruned trees -/

/-- A node that has not become hollow and is no `if` is whole. -/
theorem whole_of_not_isHollow (strict : Prop) (filled : node.isHollow = false)
    (notIf : node.isOf .ifStatement = false) : outlook.Whole strict node := by
  rw [isHollow] at filled
  refine ⟨fun _ states => ?_, fun is => ?_, fun declares => ?_⟩
  · rw [isOf_outlook] at states
    rw [isOf_eq_false rfl ((isOf_iff rfl).mp states) (by decide), if_neg Bool.false_ne_true, states,
      Bool.true_and] at filled
    exact has_of_member filled
  · rw [isOf_outlook, notIf] at is
    cases is
  · rw [isOf_outlook] at declares
    rw [if_pos declares, member] at filled
    cases entry : node.inner? (.key "declarations") with
    | none =>
      rw [entry] at filled
      cases filled
    | some list =>
      rw [entry] at filled
      refine Outlook.has_iff.mpr ⟨list, entry, (Bool.not_eq_true' _).mpr ?_⟩
      show list.isEmpty = false
      cases list with
      | array id items =>
        cases items with
        | nil => cases filled
        | cons item rest => rfl
      | _ => rfl

/-- Pruning makes everything stable if only what is pruned may not have been whole. What is pruned
is a node, or it is fleeting, so that nothing stable needs it. -/
theorem stable_prune {strict : Prop} {path : List SlotName} (keyed : tree.Keyed)
    (untyped : tree.type? = none) (below : path ≠ []) (there : tree.at? path = some old)
    (typed : old.type? ≠ none) (unsteady : outlook.isLasting type old = false)
    (target : old.isNode = true ∨ outlook.isFleeting type old = true)
    (firm : ∀ place part, tree.at? place = some part → outlook.Firm type strict part)
    (others : ∀ place part, tree.at? place = some part → place ≠ path → outlook.Whole strict part)
    (fresh : CompositeId) :
    outlook.Everywhere (outlook.Stable type strict) (tree.prune fresh path) := by
  generalize counted : path.length = length
  induction length using Nat.strong_induction_on generalizing tree old path with
  | _ length ih =>
  obtain ⟨keyedAfter, leaner, _⟩ := leaner_replaceAt keyed there (text?_of_typed typed)
  have untypedAfter : (tree.replaceAt path []).type? = none := leaner.type.trans untyped
  obtain ⟨firmAfter, wholeAfter⟩ :
      (∀ place part, (tree.replaceAt path []).at? place = some part →
        outlook.Firm type strict part) ∧
      ∀ place part, (tree.replaceAt path []).at? place = some part →
        outlook.Whole strict part ∨ tree.parentNode? path = some place := by
    obtain ⟨front, slot, rfl⟩ := List.eq_nil_or_concat path |>.resolve_left below
    rw [List.concat_eq_append] at there others ⊢
    rw [replaceAt_concat]
    exact ⟨fun place part => firm_exchange there typed unsteady firm,
      fun place part => whole_exchange there typed unsteady firm target others⟩
  have settled (whole : ∀ place part, (tree.replaceAt path []).at? place = some part →
      outlook.Whole strict part) :
      outlook.Everywhere (outlook.Stable type strict) (tree.replaceAt path []) := by
    intro place part stands
    rw [at?_outlook] at stands
    exact ⟨firmAfter place part stands, whole place part stands⟩
  rw [prune]
  split
  · rename_i none
    refine settled fun place part stands => (wholeAfter place part stands).resolve_right ?_
    rw [none]
    nofun
  · rename_i above found
    have wholeApart : ∀ place part, (tree.replaceAt path []).at? place = some part →
        place ≠ above → outlook.Whole strict part := by
      intro place part stands different
      refine (wholeAfter place part stands).resolve_right fun same => different ?_
      exact Option.some.inj (same.symm.trans found)
    split
    · rename_i gone
      refine settled fun place part stands => wholeApart place part stands ?_
      rintro rfl
      cases gone.symm.trans stands
    · rename_i node stands
      have inner (typedNode : node.type? ≠ none) : above ≠ [] := by
        rintro rfl
        cases stands
        exact typedNode untypedAfter
      split
      · rename_i hollow
        have states : node.type? = some .variableDeclaration ∨
            node.type? = some .expressionStatement := by
          rw [isHollow] at hollow
          split at hollow
          · rename_i declares
            exact .inl ((isOf_iff rfl).mp declares)
          · exact .inr ((isOf_iff rfl).mp (Bool.and_eq_true _ _ ▸ hollow).1)
        have typedNode : node.type? ≠ none := by
          rcases states with states | states <;> rw [states] <;> exact Option.some_ne_none _
        obtain ⟨⟨name, rest, split⟩, _⟩ := parentNode?_eq_some found
        have shorter : above.length < path.length := by
          rw [split, List.length_append, List.length_cons]
          omega
        rw [if_pos shorter]
        refine ih above.length (counted ▸ shorter) keyedAfter untypedAfter
          (inner typedNode) stands typedNode ?_ (.inl ?_) firmAfter wholeApart rfl
        · rw [Outlook.isLasting, isOf_outlook, isOf]
          rcases states with states | states <;> rw [states, show Option.any _ _ = false by decide,
            Bool.false_and]
        · rw [isNode, isOf]
          rcases states with states | states <;> rw [states] <;> decide
      · rename_i filled
        split
        · rename_i branch
          have isIf := (isOf_iff rfl).mp branch
          exact stable_mendIf stands firmAfter wholeApart keyedAfter isIf
            (inner (isIf ▸ Option.some_ne_none _)) fresh
        · rename_i notIf
          refine settled fun place part stood => ?_
          by_cases here : place = above
          · subst here
            cases stands.symm.trans stood
            exact whole_of_not_isHollow strict (Bool.eq_false_iff.mpr filled)
              (Bool.eq_false_iff.mpr notIf)
          · exact wholeApart place part stood here

end Tree

end CodeTree
