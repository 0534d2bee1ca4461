/-
What a cursor says about parentheses. The node that an expression stands in is found on the way
up from its cursor, and together with the slot it tells the place of the expression. So the answer
of a cursor is the rule for places, as long as the cursors remember nothing about the nodes around
them but what is true. From this it follows, form by form, that printing along the cursors gives
the tokens of the expression.
-/

import CodeTree.Proofs.Meaning
import CodeTree.Proofs.Printing

namespace CodeTree

variable {after before world : World} {store : Store} {c : CursorId} {document : Document}
  {expression : Expression} {front path : List SlotName} {type : NodeType}

namespace Place

/-! ### Places in nodes -/

/-- The type of the nodes in which a place is found. -/
def holder : Place → NodeType
  | statement => .expressionStatement
  | argument => .unaryExpression
  | operand => .updateExpression
  | left operator | right operator => Expression.operatorType operator
  | test | consequent | alternate => .conditionalExpression
  | assigned => .assignmentExpression
  | object => .memberExpression
  | callee | passed => .callExpression
  | element => .sequenceExpression

/-- Whether a place is that of an element of a list. -/
def isListed : Place → Bool
  | passed | element => true
  | _ => false

/-- The field that a place is, or that holds the list. -/
def field : Place → String
  | statement => "expression"
  | argument | operand => "argument"
  | left _ => "left"
  | right _ | assigned => "right"
  | test => "test"
  | consequent => "consequent"
  | alternate => "alternate"
  | object => "object"
  | callee => "callee"
  | passed => "arguments"
  | element => "expressions"

theorem operatorType_cases (operator : String) :
    Expression.operatorType operator = .logicalExpression ∨
      Expression.operatorType operator = .binaryExpression := by
  unfold Expression.operatorType
  split
  · exact .inl rfl
  · exact .inr rfl

theorem holder_ne_new (place : Place) : place.holder ≠ .newExpression := by
  cases place with
  | left operator | right operator =>
    rcases operatorType_cases operator with logical | binary
    · simp [holder, logical]
    · simp [holder, binary]
  | _ => simp [holder]

theorem isNode_holder (place : Place) : place.holder.isSubtypeOf .node = true := by
  cases place with
  | left operator | right operator =>
    rcases operatorType_cases operator with logical | binary
    · rw [holder, logical]
      decide
    · rw [holder, binary]
      decide
  | _ =>
    rw [holder]
    decide

/-- Whether the slot of a place can have a name. -/
def admits (place : Place) : SlotName → Bool
  | .index _ => place.isListed
  | .key key => !place.isListed && key == place.field

end Place

namespace Store

/-- A site is that of an expression at a place. -/
structure Site.Shows (store : Store) (site : Site) (place : Place) (expression : Expression) :
    Prop where
  type : site.type = expression.type
  holder : site.parentType = place.holder
  name : site.name?.any place.admits = true
  same : ∀ {key}, site.name? = some (.key key) →
    (store.member site.parent key).same site.node = true
  inner : ∀ {operator left right}, expression = .binary operator left right →
    (store.member site.node "operator").text? = some operator
  outer : ∀ {operator}, place = .left operator ∨ place = .right operator →
    (store.member site.parent "operator").text? = some operator

section Site

variable {site : Site} {place : Place} (shows : site.Shows store place expression)

include shows

theorem fills_eq (key : String) :
    store.fills site key = (!place.isListed && key == place.field) := by
  obtain ⟨name, named, admitted⟩ := (Option.any_eq_true _ _).mp shows.name
  cases name with
  | index position =>
    rw [Place.admits] at admitted
    rw [fills, named, admitted]
    rfl
  | key own =>
    rw [Place.admits, Bool.and_eq_true, beq_iff_eq] at admitted
    rw [admitted.1, Bool.true_and, ← admitted.2, Bool.eq_iff_iff, fills, Bool.and_eq_true,
      beq_iff_eq, beq_iff_eq, named, Option.some.injEq, SlotName.key.injEq]
    constructor
    · rintro ⟨rfl, _⟩
      rfl
    · rintro rfl
      exact ⟨rfl, shows.same named⟩

/-- Two operators decide by how tightly they bind. -/
theorem yieldsTo_eq {outer inner : String} {left right : Expression} (onRight : Bool)
    (same : expression = .binary inner left right)
    (there : place = if onRight then .right outer else .left outer) :
    store.yieldsTo site = Place.gives outer inner onRight := by
  have around := @shows.outer outer (by cases onRight <;> simp [there])
  have slot : (site.name? == some (.key "right")) = onRight := by
    obtain ⟨name, named, admitted⟩ := (Option.any_eq_true _ _).mp shows.name
    cases onRight <;> cases name <;> simp_all [Place.admits, Place.isListed, Place.field]
  rw [yieldsTo, operatorPrecedence?, operatorPrecedence?, around, shows.inner same, slot]
  rfl

/-- Where the types and the slot decide, they decide as the rule for places does. Where they do
not, the rule wraps nothing. -/
theorem parensBySite?_eq : store.parensBySite? site = some (place.wraps expression) ∨
    store.parensBySite? site = none ∧ place.wraps expression = false := by
  have fills := fills_eq shows
  have type := shows.type
  have holder := shows.holder
  cases expression with
  | identifier | update | member | call =>
    refine .inr ⟨?_, rfl⟩
    simp [parensBySite?, type, holder, Expression.type, place.holder_ne_new]
  | unary operator argument =>
    refine .inl ?_
    cases place <;>
      simp [parensBySite?, type, holder, Expression.type, Place.holder, Place.wraps, fills,
        Place.isListed, Place.field]
  | binary inner left right =>
    refine .inl ?_
    have own := Place.operatorType_cases inner
    cases place with
    | left outer =>
      have yields := yieldsTo_eq shows false rfl rfl
      rcases own with own | own <;> rcases Place.operatorType_cases outer with around | around <;>
        simp [parensBySite?, type, holder, Expression.type, own, Place.holder, around,
          Place.wraps, yields]
    | right outer =>
      have yields := yieldsTo_eq shows true rfl rfl
      rcases own with own | own <;> rcases Place.operatorType_cases outer with around | around <;>
        simp [parensBySite?, type, holder, Expression.type, own, Place.holder, around,
          Place.wraps, yields]
    | _ =>
      rcases own with own | own <;>
        simp [parensBySite?, type, holder, Expression.type, own, Place.holder, Place.wraps, fills,
          Place.isListed, Place.field]
  | conditional | assignment | sequence =>
    refine .inl ?_
    obtain ⟨name, named, admitted⟩ := (Option.any_eq_true _ _).mp shows.name
    cases place with
    | left outer | right outer =>
      rcases Place.operatorType_cases outer with around | around <;>
        simp [parensBySite?, type, holder, Expression.type, Place.holder, around, Place.wraps]
    | statement =>
      cases name <;> simp_all [parensBySite?, Expression.type, Place.holder, Place.wraps,
        Place.admits, Place.isListed, Place.field]
    | _ =>
      simp [parensBySite?, type, holder, Expression.type, Place.holder, Place.wraps, fills,
        Place.isListed, Place.field]

end Site

theorem slot_of_type? {value : Value} (typed : store.type? value = some type) (key : String) :
    store.slot value (.key key) = store.member value key := by
  obtain ⟨id, members, rfl, object⟩ := exists_members typed
  rw [slot_object object, member, members?, object]
  rfl

end Store

namespace World

/-! ### Asking cursors -/

/-- A world in good order. Where a cursor remembers the node that encloses it, this is what it stands
at itself. -/
structure Candid (world : World) : Prop extends Orderly world where
  node : ∀ {c node?}, (world.cursor c).views.node? = some node? → node? = some (world.value c)

/-- From one world to another, cursors have been added and asked for parentheses. -/
structure Asked (before after : World) : Prop where
  store : after.store = before.store
  size : before.cursors.size ≤ after.cursors.size
  value : ∀ {d}, d < before.cursors.size → after.value d = before.value d
  follow : ∀ {path d}, before.follow? 0 path = some d → after.follow? 0 path = some d
  candid : Candid after

theorem Asked.refl (candid : Candid world) : Asked world world :=
  ⟨rfl, Nat.le_refl _, fun _ => rfl, fun leads => leads, candid⟩

theorem Asked.trans {first second third : World} (left : Asked first second)
    (right : Asked second third) : Asked first third where
  store := right.store.trans left.store
  size := Nat.le_trans left.size right.size
  value inside := (right.value (Nat.lt_of_lt_of_le inside left.size)).trans (left.value inside)
  follow leads := right.follow (left.follow leads)
  candid := right.candid

theorem Viewless.candid (viewless : Viewless world) (orderly : Orderly world) : Candid world := by
  refine ⟨orderly, fun {c node?} remembered => ?_⟩
  rw [viewless c] at remembered
  cases remembered

theorem Looks.asked (looks : Looks before after) (orderly : Orderly after) (candid : Candid before) :
    Asked before after := by
  refine ⟨looks.store, looks.quiet.size, looks.value, looks.follow, orderly,
    fun {c node?} remembered => ?_⟩
  rcases looks.quiet.views c with same | empty
  · rw [same] at remembered
    rw [candid.node remembered, looks.value]
    -- A cursor that is not there remembers nothing.
    refine Nat.not_le.mp fun outside => ?_
    rw [cursor, Array.getElem?_eq_none outside] at remembered
    cases remembered
  · rw [empty] at remembered
    cases remembered

/-- What encloses the slot of a node is the node. -/
theorem asked_node (candid : Candid world) (isNode : world.isNodeAt c = true) :
    (world.node c).1 = some (world.value c) ∧ Asked world (world.node c).2 := by
  rw [node, candid.coherent.sound.chain_eq, nodeAlong]
  cases remembered : (world.cursor c).views.node? with
  | some node? => exact ⟨candid.node remembered, .refl candid⟩
  | none =>
    simp only [isNode, if_true]
    have alike := alike_modifyViews world c
      fun views => { views with node? := some (some (world.value c)) }
    refine ⟨trivial, rfl, Nat.le_of_eq alike.size.symm, fun _ => alike.value _, ?_,
      candid.toOrderly.modifyViews c _, ?_⟩
    · intro path d leads
      rwa [follow?_congr (kept?_modifyViews world c _)]
    · intro d node? seen
      rw [alike.value]
      rw [modifyViews, cursor_modifyCursor] at seen
      split at seen
      · rename_i here
        rw [here.1]
        exact (Option.some.inj seen).symm
      · exact candid.node seen

/-- An expression of one of the forms may start a statement. -/
theorem asked_canBeFirst (candid : Candid world)
    (typed : world.store.type? (world.value c) = some type) (isNode : type.isSubtypeOf .node = true)
    (notFunction : type ≠ .functionExpression) (notObject : type ≠ .objectExpression) :
    ∃ after, Action.canBeFirst c world = .ok true after ∧ Asked world after := by
  have here : world.isNodeAt c = true := by
    rw [isNodeAt, Store.isNode, Store.isOf, typed, Option.any_some, isNode]
  obtain ⟨node, asked⟩ := asked_node candid here
  have unlike {other : NodeType} (concrete : other.isAbstract = false) (different : type ≠ other) :
      (world.node c).2.store.isOf other (world.value c) = false := by
    rw [asked.store, Store.isOf, typed, Option.any_some, Bool.eq_false_iff]
    exact fun derives => different ((NodeType.isSubtypeOf_iff concrete).mp derives)
  refine ⟨_, ?_, asked⟩
  simp only [Action.canBeFirst, Action.run_bind, Action.run_ofState, node, Action.run_get,
    Action.run_pure, unlike rfl notFunction, unlike rfl notObject]
  rfl

/-! ### Documents at cursors -/

/-- A path leads to a cursor, and what the cursor stands at stands for a document. -/
structure Bears (world : World) (path : List SlotName) (c : CursorId) (document : Document) :
    Prop where
  candid : Candid world
  leads : world.follow? 0 path = some c
  holds : world.store.Holds document (world.value c)

namespace Bears

variable (bears : world.Bears path c document)

include bears

theorem later (asked : Asked world after) : after.Bears path c document := by
  refine ⟨asked.candid, asked.follow bears.leads, ?_⟩
  rw [asked.store, asked.value (bears.candid.toOrderly.inside bears.leads)]
  exact bears.holds

theorem type? : world.store.type? (world.value c) = Document.terrain.type? document := by
  rw [← Store.type?_terrain, (Store.similar_holds world.store).type? bears.holds]

/-- What a slot of the document holds, the slot of the cursor's value stands for. -/
theorem inner {name : SlotName} {part : Document} (entry : document.inner? name = some part) :
    ∃ value, world.store.inner? (world.value c) name = some value ∧
      world.store.Holds part value := by
  have related : Option.Rel world.store.Holds (document.inner? name)
      (world.store.inner? (world.value c) name) :=
    (Store.similar_holds world.store).inner bears.holds name
  rw [entry] at related
  cases inner : world.store.inner? (world.value c) name with
  | none =>
    rw [inner] at related
    cases related
  | some value =>
    rw [inner] at related
    cases related with
    | some holds => exact ⟨value, rfl, holds⟩

theorem member_text {key characters : String}
    (entry : document.inner? (.key key) = some (.text characters)) :
    (world.store.member (world.value c) key).text? = some characters := by
  obtain ⟨value, inner, holds⟩ := bears.inner entry
  cases holds
  rw [Store.member_eq_inner?, inner]
  rfl

/-- Asking for a slot gives a cursor at what the slot holds. -/
theorem child (name : SlotName) {part : Document} (entry : document.inner? name = some part)
    (composite : part.isComposite = true) :
    Asked world (world.child c name).2 ∧
      (world.child c name).2.Bears (path ++ [name]) (world.child c name).1 part := by
  obtain ⟨value, inner, holds⟩ := bears.inner entry
  obtain ⟨id, rfl⟩ : ∃ id, value = .composite id := by
    cases holds with
    | array present | object present => exact Store.exists_id_of_contents? present
    | _ => cases composite
  obtain ⟨orderly, looks, leads, here⟩ := bears.candid.toOrderly.descend bears.leads
    ((Store.part?_cons inner []).trans rfl)
  have asked := looks.asked orderly bears.candid
  refine ⟨asked, asked.candid, leads, ?_⟩
  have same : (world.child c name).2.value (world.child c name).1 = .composite id := here
  have store : (world.child c name).2.store = world.store := looks.store
  rw [same, store]
  exact holds

end Bears

end World

namespace Expression

theorem isComposite_document (expression : Expression) :
    expression.document.isComposite = true := by
  cases expression <;> rfl

theorem type?_document (expression : Expression) :
    Document.terrain.type? expression.document = some expression.type := by
  cases expression with
  | binary operator left right =>
    rcases Place.operatorType_cases operator with logical | binary
    · rw [document, type, logical]
      rfl
    · rw [document, type, binary]
      rfl
  | _ => rfl

/-- An expression is an expression by its type, and none that could be taken for a statement. -/
theorem type_cases (expression : Expression) : expression.type.isSubtypeOf .node = true ∧
    expression.type.isSubtypeOf .expression = true ∧ expression.type ≠ .functionExpression ∧
      expression.type ≠ .objectExpression := by
  cases expression with
  | binary operator left right =>
    rcases Place.operatorType_cases operator with logical | binary
    · rw [type, logical]
      decide
    · rw [type, binary]
      decide
  | _ =>
    rw [type]
    decide

end Expression

namespace World

/-! ### Cursors in places -/

/-- A path leads to the cursor of a node in which a place is found. -/
structure Encloses (world : World) (place : Place) (front : List SlotName) (holder : CursorId) :
    Prop where
  leads : world.follow? 0 front = some holder
  type : world.store.type? (world.value holder) = some place.holder
  outer : ∀ {operator}, place = .left operator ∨ place = .right operator →
    (world.store.member (world.value holder) "operator").text? = some operator

theorem Encloses.nodeAt (orderly : Orderly world) {place : Place} {holder : CursorId}
    (encloses : world.Encloses place front holder) : world.tree.nodeAt front = true := by
  rw [← orderly.nodeAt_iff encloses.leads, isNodeAt, Store.isNode, Store.isOf, encloses.type,
    Option.any_some, place.isNode_holder]

/-- A cursor stands at a place of a node. -/
structure Places (world : World) (place : Place) (path : List SlotName) (c holder : CursorId) :
    Prop where
  above : ∃ front, world.tree.parentNode? path = some front ∧ world.Encloses place front holder
  name : (world.name? c).any place.admits = true
  same : ∀ {key}, world.name? c = some (.key key) →
    (world.store.member (world.value holder) key).same (world.value c) = true

theorem Bears.isNodeAt (bears : world.Bears path c expression.document) :
    world.isNodeAt c = true := by
  rw [World.isNodeAt, Store.isNode, Store.isOf, bears.type?, expression.type?_document,
    Option.any_some, expression.type_cases.1]

section Places

variable {place : Place} {holder : CursorId} (bears : world.Bears path c expression.document)
  (places : world.Places place path c holder)

include bears places

theorem site?_eq (unnamed : expression.type ≠ .identifier) : world.site? c =
    some ⟨world.value c, expression.type, world.value holder, place.holder, world.name? c⟩ := by
  obtain ⟨front, above, encloses⟩ := places.above
  have found : (world.chain c).tail.find? world.isNodeAt = some holder := by
    have fresh := bears.candid.toOrderly.freshParent? bears.leads
    rw [above, World.freshParent?, if_pos bears.isNodeAt] at fresh
    generalize (world.chain c).tail.find? world.isNodeAt = parent? at fresh ⊢
    cases fresh with
    | some leads => rw [← leads, encloses.leads]
  have typed := bears.type?.trans expression.type?_document
  have isExpression : world.store.isExpression (world.value c) = true := by
    rw [Store.isExpression, Store.isOf, typed, Option.any_some, expression.type_cases.2.1]
  simp [site?, isExpression, typed, unnamed, found, encloses.type]

/-- A cursor says what the rule for places says. -/
theorem asked_needsParens :
    ∃ after, Action.needsParens c false world = .ok (place.wraps expression) after ∧
      Asked world after := by
  by_cases named : expression.type = .identifier
  · have nowhere : world.site? c = none := by
      have typed := bears.type?.trans expression.type?_document
      rw [named] at typed
      simp [site?, typed]
    have bare : place.wraps expression = false := by
      cases expression with
      | identifier name => rfl
      | binary operator left right =>
        rcases Place.operatorType_cases operator with own | own <;>
          simp [Expression.type, own] at named
      | _ => cases named
    refine ⟨world, ?_, .refl bears.candid⟩
    simp [Action.needsParens, nowhere, bare]
  · have site := site?_eq bears places named
    obtain ⟨front, _, encloses⟩ := places.above
    have shows : Store.Site.Shows world.store
        ⟨world.value c, expression.type, world.value holder, place.holder, world.name? c⟩ place
        expression := by
      refine ⟨rfl, rfl, places.name, places.same, ?_, encloses.outer⟩
      rintro operator left right rfl
      exact bears.member_text rfl
    have decides := Store.parensBySite?_eq shows
    rcases decides with decided | ⟨undecided, bare⟩
    · refine ⟨world, ?_, .refl bears.candid⟩
      simp [Action.needsParens, site, decided]
    · obtain ⟨after, first, asked⟩ := asked_canBeFirst bears.candid
        (bears.type?.trans expression.type?_document) expression.type_cases.1
        expression.type_cases.2.2.1 expression.type_cases.2.2.2
      refine ⟨after, ?_, asked⟩
      simp [Action.needsParens, site, undecided, first, bare]

end Places

end World

namespace Expression

open World

/-! ### Printing gives the tokens -/

/-- Wherever an expression stands, printing it along the cursors gives its tokens. -/
def Prints (expression : Expression) : Prop :=
  ∀ {world path c}, world.Bears path c expression.document →
    ∃ after, expression.print c world = .ok expression.tokens after ∧ Asked world after

section Slot

variable (prints : expression.Prints) (bears : world.Bears path c document) {place : Place}

include prints bears

theorem printIn_eq {name : SlotName} (holder : CursorId)
    (entry : document.inner? name = some expression.document)
    (places : ∀ {after d}, Asked world after → after.Bears (path ++ [name]) d expression.document →
      after.Places place (path ++ [name]) d holder) :
    ∃ after, printIn c name expression.print world =
      .ok (placed place expression expression.tokens) after ∧ Asked world after := by
  obtain ⟨asked, bearsThere⟩ := bears.child name entry expression.isComposite_document
  obtain ⟨mid, printed, askedMid⟩ := prints bearsThere
  have bearsMid := bearsThere.later askedMid
  obtain ⟨after, answered, askedAfter⟩ :=
    asked_needsParens bearsMid (places (asked.trans askedMid) bearsMid)
  refine ⟨after, ?_, (asked.trans askedMid).trans askedAfter⟩
  simp only [printIn, Action.run_bind, Action.run_ofState, printed, answered, placed]
  cases place.wraps expression <;> rfl

omit prints in
theorem encloses_of_bears (asked : Asked world after)
    (typed : Document.terrain.type? document = some place.holder)
    (outer : ∀ {operator}, place = .left operator ∨ place = .right operator →
      document.inner? (.key "operator") = some (.text operator)) : after.Encloses place path c := by
  have bearsAfter := bears.later asked
  exact ⟨bearsAfter.leads, bearsAfter.type?.trans typed,
    fun there => bearsAfter.member_text (outer there)⟩

variable (place) in
/-- Printing what stands in a field of a node. -/
theorem printIn_field (typed : Document.terrain.type? document = some place.holder)
    (outer : ∀ {operator}, place = .left operator ∨ place = .right operator →
      document.inner? (.key "operator") = some (.text operator))
    (unlisted : place.isListed = false)
    (entry : document.inner? (.key place.field) = some expression.document) :
    ∃ after, printIn c (.key place.field) expression.print world =
      .ok (placed place expression expression.tokens) after ∧ Asked world after := by
  refine printIn_eq prints bears c entry fun {after d} asked there => ?_
  have encloses := encloses_of_bears bears asked typed outer
  obtain ⟨parent, leads, kept⟩ := follow?_concat.mp there.leads
  cases encloses.leads.symm.trans leads
  have orderly := asked.candid.toOrderly
  have named := (orderly.coherent.sound.kept kept).2.1
  refine ⟨⟨path, ?_, encloses⟩, ?_, ?_⟩
  · refine Tree.parentNode?_slot ?_ (encloses.nodeAt orderly)
    rw [← orderly.nodeAt_iff there.leads, there.isNodeAt]
  · rw [named, Option.any_some, Place.admits, unlisted, beq_self_eq_true]
    rfl
  · intro key bearing
    cases named.symm.trans bearing
    have agrees := orderly.coherent.agrees leads kept
    rw [← Store.slot_of_type? encloses.type]
    exact agrees.same

/-- Printing an element of a list that a field of a node holds. -/
theorem printIn_element {holder : CursorId} {position : Nat}
    (encloses : ∀ {after}, Asked world after → after.Encloses place front holder)
    (listed : place.isListed = true) (here : path = front ++ [.key place.field])
    {items : List Document} (array : document = .array items)
    (entry : items[position]? = some expression.document) :
    ∃ after, printIn c (.index position) expression.print world =
      .ok (placed place expression expression.tokens) after ∧ Asked world after := by
  subst here array
  refine printIn_eq prints bears holder entry fun {after d} asked there => ?_
  have bearsAfter := bears.later asked
  obtain ⟨parent, leads, kept⟩ := follow?_concat.mp there.leads
  have orderly := asked.candid.toOrderly
  have named := (orderly.coherent.sound.kept kept).2.1
  refine ⟨⟨front, ?_, encloses asked⟩, ?_, ?_⟩
  · rw [List.append_assoc, List.singleton_append]
    refine Tree.parentNode?_element ?_ ?_ ((encloses asked).nodeAt orderly)
    · have atNode := orderly.nodeAt_iff there.leads
      rw [there.isNodeAt, List.append_assoc, List.singleton_append] at atNode
      exact atNode.symm
    · rw [← orderly.nodeAt_iff bearsAfter.leads, isNodeAt, Store.isNode, Store.isOf,
        bearsAfter.type?]
      rfl
  · rw [named, Option.any_some, Place.admits, listed]
  · intro key bearing
    cases named.symm.trans bearing

end Slot

/-- What has been printed, set among other tokens. -/
theorem printed_map {print : Action (List Token)} {tokens : List Token} (f : List Token → List Token)
    (printed : ∃ after, print world = .ok tokens after ∧ Asked world after) :
    ∃ after, (do return f (← print) : Action (List Token)) world = .ok (f tokens) after ∧
      Asked world after := by
  obtain ⟨after, printed, asked⟩ := printed
  refine ⟨after, ?_, asked⟩
  rw [Action.run_bind, printed]
  rfl

/-- Printing the expressions of a list that a field of a node holds, one after another. -/
theorem printFrom_eq (place : Place) {list holder : CursorId} {items : List Document}
    (listed : place.isListed = true) :
    ∀ {rest : List Expression} (position : Nat) {world : World},
      world.Bears (front ++ [.key place.field]) list (.array items) →
      (∀ {after}, Asked world after → after.Encloses place front holder) →
      items.drop position = documents rest → (∀ expression ∈ rest, expression.Prints) →
      ∃ after, printFrom position rest list world = .ok (tokensOf place rest) after ∧
        Asked world after := by
  intro rest
  induction rest with
  | nil =>
    intro position world bears _ _ _
    exact ⟨world, rfl, .refl bears.candid⟩
  | cons first rest ih =>
    intro position world bears encloses left prints
    rw [documents] at left
    have here : items[position]? = some first.document := by
      rw [← Nat.add_zero position, ← List.getElem?_drop, left]
      rfl
    have beyond : items.drop (position + 1) = documents rest := by
      rw [← List.tail_drop, left, List.tail_cons]
    obtain ⟨mid, printed, asked⟩ := printIn_element (prints first List.mem_cons_self) bears
      encloses listed rfl rfl here
    obtain ⟨after, others, askedAfter⟩ := ih (position + 1) (bears.later asked)
      (fun askedOn => encloses (asked.trans askedOn)) beyond
      fun expression member => prints expression (List.mem_cons_of_mem _ member)
    refine ⟨after, ?_, asked.trans askedAfter⟩
    simp only [printFrom, Action.run_bind, printed, others, Action.run_pure, tokensOf]

mutual

theorem prints : ∀ expression : Expression, expression.Prints
  | identifier name => fun bears => ⟨_, rfl, .refl bears.candid⟩
  | unary operator argument => fun bears =>
    printed_map _ (printIn_field (prints argument) bears .argument rfl nofun rfl rfl)
  | update operator before argument => fun bears =>
    printed_map _ (printIn_field (prints argument) bears .operand rfl nofun rfl rfl)
  | binary operator left right => fun bears => by
    have typed := type?_document (.binary operator left right)
    obtain ⟨mid, first, asked⟩ := printIn_field (prints left) bears (.left operator) typed (by
      rintro _ (⟨⟨⟩⟩ | ⟨⟨⟩⟩)
      rfl) rfl rfl
    obtain ⟨after, second, askedAfter⟩ := printIn_field (prints right) (bears.later asked)
      (.right operator) typed (by
        rintro _ (⟨⟨⟩⟩ | ⟨⟨⟩⟩)
        rfl) rfl rfl
    refine ⟨after, ?_, asked.trans askedAfter⟩
    dsimp only [Place.field] at first second
    simp only [print, Action.run_bind, first, second, Action.run_pure, tokens]
  | conditional test consequent alternate => fun bears => by
    obtain ⟨mid, first, asked⟩ := printIn_field (prints test) bears .test rfl nofun rfl rfl
    obtain ⟨next, second, askedNext⟩ := printIn_field (prints consequent) (bears.later asked)
      .consequent rfl nofun rfl rfl
    obtain ⟨after, third, askedAfter⟩ := printIn_field (prints alternate)
      (bears.later (asked.trans askedNext)) .alternate rfl nofun rfl rfl
    refine ⟨after, ?_, (asked.trans askedNext).trans askedAfter⟩
    dsimp only [Place.field] at first second third
    simp only [print, Action.run_bind, first, second, third, Action.run_pure, tokens]
  | assignment operator name value => fun bears =>
    printed_map _ (printIn_field (prints value) bears .assigned rfl nofun rfl rfl)
  | member object name => fun bears =>
    printed_map _ (printIn_field (prints object) bears .object rfl nofun rfl rfl)
  | call callee arguments => fun bears => by
    obtain ⟨mid, first, asked⟩ := printIn_field (prints callee) bears .callee rfl nofun rfl rfl
    have bearsMid := bears.later asked
    obtain ⟨askedList, bearsList⟩ := bearsMid.child (.key "arguments") rfl rfl
    obtain ⟨after, others, askedAfter⟩ := printFrom_eq .passed rfl 0 bearsList
      (fun askedOn => encloses_of_bears bearsMid (askedList.trans askedOn) rfl nofun)
      rfl (printsAll arguments)
    refine ⟨after, ?_, (asked.trans askedList).trans askedAfter⟩
    dsimp only [Place.field] at first
    simp only [print, Action.run_bind, first, Action.run_ofState, others, Action.run_pure, tokens]
  | sequence elements => fun bears => by
    obtain ⟨askedList, bearsList⟩ := bears.child (.key "expressions") rfl rfl
    obtain ⟨after, others, askedAfter⟩ := printFrom_eq .element rfl 0 bearsList
      (fun askedOn => encloses_of_bears bears (askedList.trans askedOn) rfl nofun)
      rfl (printsAll elements)
    refine ⟨after, ?_, askedList.trans askedAfter⟩
    simp only [print, Action.run_bind, Action.run_ofState, others, Action.run_pure, tokens]

theorem printsAll : ∀ (expressions : List Expression), ∀ expression ∈ expressions,
    expression.Prints
  | [], _, inside => nomatch inside
  | first :: rest, expression, inside => by
    rcases List.mem_cons.mp inside with same | later
    · rw [same]
      exact prints first
    · exact printsAll rest expression later

end

theorem printStatement_eq (expression : Expression) (bears : world.Bears [] c expression.program) :
    ∃ after, expression.printStatement c world = .ok expression.tokens after := by
  obtain ⟨askedBody, bearsBody⟩ := bears.child (.key "body") rfl rfl
  obtain ⟨asked, bearsStatement⟩ := bearsBody.child (.index 0) rfl rfl
  obtain ⟨after, printed, _⟩ :=
    printIn_field expression.prints bearsStatement .statement rfl nofun rfl rfl
  have unwrapped : Place.statement.wraps expression = false := by
    cases expression <;> rfl
  refine ⟨after, ?_⟩
  dsimp only [Place.field] at printed
  simp only [printStatement, Action.run_bind, Action.run_ofState, printed, placed, unwrapped]
  rfl

/-- An expression that is a statement of its own is printed, as its tokens. -/
theorem printed_eq (proper : expression.program.isProper = true) :
    expression.printed = some expression.tokens := by
  obtain ⟨brings, holds, _⟩ := Store.loaded expression.program proper .empty
  rw [printed]
  generalize (Store.load expression.program).run .empty = loaded at brings holds ⊢
  obtain ⟨value, store⟩ := loaded
  have intact := brings.intact value List.mem_cons_self
  have viewless := (Run.start #[] intact.unshared intact.free).viewless
  obtain ⟨after, tokens⟩ := printStatement_eq expression ⟨viewless.candid
    ⟨coherent_start #[] intact.unshared intact.free, rfl, brings.fits Store.fits_empty,
      intact.whole⟩, rfl, holds⟩
  dsimp only
  generalize added : World.addRoot { World.empty with store } value = rooted
  obtain ⟨root, world⟩ := rooted
  have ended : expression.printStatement root (world.hold root) = .ok expression.tokens after := by
    cases added
    exact tokens
  dsimp only
  rw [ended]

end Expression

end CodeTree
