/-
Expressions that stray. Whether an expression starts a statement is asked of the names next above
it, but the statement is looked for however far out it is. Where an array or a plain record stands
in between, the two may disagree: the names say that the expression is the first in a block or the
expression of a statement, and the slot of that block or statement holds something else. An
expression strays if that comes up on the way out from it. To ask whether it needs parentheses is a
fault exactly for functions and objects that stray, unless it is known that they stand in an
expression.
-/

import CodeTree.Proofs.Freshness
import CodeTree.Proofs.Placements

namespace CodeTree

variable {world : World} {store : Store} {outer root value : Value} {c : CursorId}
  {id : CompositeId} {here : CursorId → Prop} {cause : Fault} {path : List SlotName}

/-- What stands in a field is no element of a list. -/
theorem Placement.isFirstOf_of_isField {placement : Placement} {field list : String}
    (isField : placement.isField field = true) : placement.isFirstOf list = false := by
  rw [Placement.isField, beq_iff_eq] at isField
  simp [Placement.isFirstOf, isField]

namespace Store

/-- On the way out from the end of a path, past nodes that lead those around them, names come up
that belong to a slot of the node next around, which holds something else. -/
inductive Strays (store : Store) (root : Value) : Fault → List SlotName → Prop
  | block {path front : List SlotName} {outer : Value}
      (around : store.around? root path = some (front, outer))
      (type : store.isOf .blockStatement outer = true)
      (first : (Placement.ofPath path).isFirstOf "body" = true)
      (apart : path ≠ front ++ [.key "body", .index 0]) : Strays store root .blockSlot path
  | statement {path front : List SlotName} {outer : Value}
      (around : store.around? root path = some (front, outer))
      (type : store.isOf .expressionStatement outer = true)
      (field : (Placement.ofPath path).isField "expression" = true)
      (apart : path ≠ front ++ [.key "expression"]) : Strays store root .statementSlot path
  | behind {cause : Fault} {path front : List SlotName} {outer : Value}
      (around : store.around? root path = some (front, outer))
      (leads : store.leads outer (.ofPath path) = true)
      (strays : Strays store root cause front) : Strays store root cause path

/-- No node stands at two places of a value. -/
def NodesApart (store : Store) (root : Value) : Prop :=
  ∀ {path other part}, store.isNode part = true → store.part? root path = some part →
    store.part? root other = some part → path = other

theorem exists_id_of_isNode (node : store.isNode value = true) : ∃ id, value = .composite id := by
  obtain ⟨_, typed, _⟩ := (Option.any_eq_true _ _).mp node
  obtain ⟨id, _, composite, _⟩ := exists_members typed
  exact ⟨id, composite⟩

theorem Unshared.nodesApart (unshared : store.Unshared root) : store.NodesApart root := by
  intro path other part node first second
  obtain ⟨id, rfl⟩ := exists_id_of_isNode node
  exact unshared first second

/-! ### What a slot holds -/

section NodesApart

variable {front : List SlotName}

theorem member_eq_composite {key : String} :
    store.member outer key = .composite id ↔
      store.inner? outer (.key key) = some (.composite id) := by
  rw [member_eq_inner?]
  cases store.inner? outer (.key key) <;> simp

theorem item_eq_composite {index : Nat} :
    store.item outer index = .composite id ↔
      store.inner? outer (.index index) = some (.composite id) := by
  unfold item items? inner?
  cases store.contents? outer with
  | none => simp
  | some contents =>
    cases contents with
    | array items =>
      show items[index]?.getD .null = _ ↔ items[index]? = _
      cases items[index]? <;> simp
    | object members => simp

variable (apart : store.NodesApart root) (node : store.isNode (.composite id) = true)
  (there : store.part? root path = some (.composite id))
  (outside : store.part? root front = some outer)

include apart node there outside

/-- A node stands in one place only. -/
theorem NodesApart.path_eq_iff (slots : List SlotName) :
    path = front ++ slots ↔ store.part? outer slots = some (.composite id) := by
  have reached : store.part? root (front ++ slots) = store.part? outer slots := by
    rw [part?_append, outside, Option.bind_some]
  constructor
  · rintro rfl
    rw [← reached, there]
  · intro held
    exact apart node there (reached.trans held)

theorem NodesApart.same_member (key : String) :
    (store.member outer key).same (.composite id) = true ↔ path = front ++ [.key key] := by
  rw [apart.path_eq_iff node there outside, Value.same_composite_right, member_eq_composite]
  simp only [part?, Option.bind_fun_some]

theorem NodesApart.same_item (key : String) (index : Nat) :
    (store.item (store.member outer key) index).same (.composite id) = true ↔
      path = front ++ [.key key, .index index] := by
  rw [apart.path_eq_iff node there outside, Value.same_composite_right, item_eq_composite,
    member_eq_inner?]
  simp only [part?, Option.bind_fun_some]
  cases store.inner? outer (.key key) with
  | none => simp [inner?, contents?]
  | some next => rfl

end NodesApart

/-! ### The types of statements -/

/-- What leads the node around it stands in no statement next to it. -/
theorem leads_types {placement : Placement} (leads : store.leads outer placement = true) :
    store.isOf .blockStatement outer = false ∧ store.isOf .expressionStatement outer = false ∧
      store.isOf .newExpression outer = false := by
  cases typed : store.type? outer with
  | none => simp [Store.leads, Store.isOf, typed] at leads
  | some own =>
    simp only [Store.leads, Store.isOf, typed, Option.any_some] at leads ⊢
    revert leads
    cases own <;> simp +decide

theorem isMistakable_iff : store.isMistakable value = true ↔
    store.type? value = some .functionExpression ∨ store.type? value = some .objectExpression := by
  unfold isMistakable Store.isOf
  cases store.type? value with
  | none => simp
  | some own =>
    rw [Option.any_some, Option.any_some, Option.some.injEq, Option.some.injEq]
    cases own <;> decide

theorem isNode_of_isMistakable (mistakable : store.isMistakable value = true) :
    store.isNode value = true := by
  unfold isNode Store.isOf
  rcases isMistakable_iff.mp mistakable with typed | typed <;>
  · rw [typed]
    rfl

/-- What strays stands in a node that is no `new`. -/
theorem Strays.outside (strays : store.Strays root cause path) : ∃ front outer type,
      store.around? root path = some (front, outer) ∧ store.type? outer = some type ∧
        type ≠ .newExpression := by
  have typed {front : List SlotName} {outer : Value}
      (around : store.around? root path = some (front, outer))
      (other : store.type? outer ≠ some .newExpression) : ∃ front outer type,
        store.around? root path = some (front, outer) ∧ store.type? outer = some type ∧
          type ≠ .newExpression := by
    obtain ⟨own, own?, _⟩ := (Option.any_eq_true _ _).mp (around?_eq_some around).2.2
    exact ⟨front, outer, own, around, own?, fun new => other (new ▸ own?)⟩
  cases strays with
  | block around type _ _ =>
    refine typed around fun new => ?_
    rw [Store.isOf, new] at type
    cases type
  | statement around type _ _ =>
    refine typed around fun new => ?_
    rw [Store.isOf, new] at type
    cases type
  | behind around leads _ =>
    refine typed around fun new => ?_
    have other := (leads_types leads).2.2
    rw [Store.isOf, new] at other
    cases other

/-- About a function or an object in a node that is no `new`, types and slots decide nothing. -/
theorem parensAt?_of_strays (strays : store.Strays root cause path)
    (there : store.part? root path = some value) (mistakable : store.isMistakable value = true) :
    store.parensAt? root path = none := by
  obtain ⟨front, outer, type, around, typed, noNew⟩ := strays.outside
  unfold parensAt? siteAt?
  rcases isMistakable_iff.mp mistakable with own | own <;>
  · have isExpression : store.isExpression value = true := by
      rw [isExpression, Store.isOf, own]
      rfl
    simp [there, isExpression, own, around, typed, parensBySite?, noNew]

/-- A path strays at the node around it, or behind it. -/
theorem strays_iff {store : Store} {root outer : Value} {path front : List SlotName}
    (around : store.around? root path = some (front, outer)) {cause : Fault} :
    store.Strays root cause path ↔
      if store.isOf .blockStatement outer && (Placement.ofPath path).isFirstOf "body" then
        path ≠ front ++ [.key "body", .index 0] ∧ cause = .blockSlot
      else if store.isOf .expressionStatement outer &&
          (Placement.ofPath path).isField "expression" then
        path ≠ front ++ [.key "expression"] ∧ cause = .statementSlot
      else store.leads outer (.ofPath path) = true ∧ store.Strays root cause front := by
  constructor
  · intro strays
    cases strays with
    | block aroundToo type first apart =>
      cases around.symm.trans aroundToo
      rw [type, first]
      exact ⟨apart, rfl⟩
    | statement aroundToo type field apart =>
      cases around.symm.trans aroundToo
      rw [Placement.isFirstOf_of_isField field, Bool.and_false, if_neg Bool.false_ne_true, type,
        field]
      exact ⟨apart, rfl⟩
    | behind aroundToo leads strays =>
      cases around.symm.trans aroundToo
      obtain ⟨notBlock, notStatement, _⟩ := leads_types leads
      rw [notBlock, notStatement]
      exact ⟨leads, strays⟩
  · intro strays
    split at strays
    · rename_i inBlock
      obtain ⟨type, first⟩ := Bool.and_eq_true_iff.mp inBlock
      obtain ⟨apart, rfl⟩ := strays
      exact .block around type first apart
    · split at strays
      · rename_i inStatement
        obtain ⟨type, field⟩ := Bool.and_eq_true_iff.mp inStatement
        obtain ⟨apart, rfl⟩ := strays
        exact .statement around type field apart
      · exact .behind around strays.1 strays.2

section Faults

variable (apart : store.NodesApart root) (there : store.part? root path = some value)

include apart there

/-- To climb to the start of a statement is a fault for nodes that stray. -/
theorem startsStatement_eq_error (node : store.isNode value = true) :
    store.startsStatement root path = .error cause ↔ store.Strays root cause path := by
  -- The nodes around come nearer to the root.
  induction length : path.length using Nat.strongRecOn generalizing path value with
  | ind _ ih =>
    cases around : store.around? root path with
    | none =>
      rw [startsStatement_of_none around]
      refine ⟨by simp, fun strays => ?_⟩
      cases strays <;> simp_all
    | some outside =>
      obtain ⟨front, outer⟩ := outside
      obtain ⟨_, outside, outerNode⟩ := around?_eq_some around
      obtain ⟨id, rfl⟩ := exists_id_of_isNode node
      rw [startsStatement_of_some around, strays_iff around, there, Option.any_some, Option.any_some]
      simp only [apart.same_item node there outside, apart.same_member node there outside]
      split
      · split <;> simp [*, eq_comm]
      · split
        · split <;> simp [*, eq_comm]
        · split
          · rename_i leads
            rw [ih front.length (length ▸ length_of_around? around) outside
              outerNode rfl, and_iff_right leads]
          · simp [*]

/-- To ask for parentheses is a fault for functions and objects that stray, unless they are known to
stand in an expression. -/
theorem parens_eq_error {inExpression : Bool} :
    store.parens inExpression root path = .error cause ↔
      inExpression = false ∧ store.isMistakable value = true ∧ store.Strays root cause path := by
  rw [parens, there, Option.any_some]
  cases decided : store.parensAt? root path with
  | some answer =>
    refine ⟨by simp, ?_⟩
    rintro ⟨_, mistakable, strays⟩
    rw [parensAt?_of_strays strays there mistakable] at decided
    cases decided
  | none =>
    cases inExpression with
    | true => simp
    | false =>
      cases mistakable : store.isMistakable value with
      | false => simp
      | true =>
        simpa using startsStatement_eq_error apart there (isNode_of_isMistakable mistakable)

end Faults

end Store

namespace Action

open World

/-- How a question ends: it is answered, or there is a cause for a fault. Nothing has changed but what
is remembered, which is true. -/
def Settles (here : CursorId → Prop) (world : World) (causes : Fault → Prop)
    (result : EStateM.Result (Halt EditError) World Bool) : Prop :=
  ∃ verdict after, Learns here world after ∧ result = concluding after verdict ∧
    ∀ cause, verdict = .error cause ↔ causes cause

theorem settles_needsParens (apart : world.store.NodesApart root) (sound : Sound world)
    (fresh : Fresh here world) (grounded : Grounded here world c) (among : here c)
    (placed : ∀ {id}, world.value c = .composite id → world.Placed root path c)
    (inExpression : Bool) :
    Settles here world (fun cause => inExpression = false ∧
        world.store.isMistakable (world.value c) = true ∧ world.store.Strays root cause path)
      (needsParens c inExpression world) := by
  cases typed : world.store.type? (world.value c) with
  | none =>
    exact ⟨.ok false, world, fresh.learns, needsParens_of_untyped typed inExpression,
      fun cause => by simp [Store.isMistakable, Store.isOf, typed]⟩
  | some own =>
    obtain ⟨id, _, composite, _⟩ := Store.exists_members typed
    have placed := placed composite
    obtain ⟨after, learns, result⟩ := needsParens_eq sound fresh grounded among placed inExpression
    exact ⟨_, after, learns, result, fun cause => Store.parens_eq_error apart placed.part⟩

end Action

namespace World

/-- In a tree that cursors fit, a cursor is placed at the end of its path. -/
theorem Coherent.placed (coherent : Coherent 0 world) (living : world.isAlive 0 = true)
    (leads : world.follow? 0 path = some c) (here : world.value c = .composite id) :
    world.Placed (world.value 0) path c := by
  have sound := coherent.sound
  refine follow?_induction (motive := fun path c => ∀ {id}, world.value c = .composite id →
    world.Placed (world.value 0) path c) ?_ ?_ leads here
  · exact fun _ => .top coherent.top rfl
  · intro path parent name c toParent kept placed id here
    obtain ⟨above, bears, _⟩ := sound.kept kept
    have slot := (coherent.agrees toParent kept).inner? here
    obtain ⟨outer, there⟩ := Store.exists_id_of_inner? slot
    exact .step (placed there) (sound.isAlive_of_follow living toParent) above bears
      (slot.trans (congrArg some here.symm))

end World

end CodeTree
