/-
Left edges. A statement starts with the text of its expression, and that with the text of what comes
first in it, and so on down the left edge, to a node whose text starts with a word or a sign of its
own. If the node is a function or an object, the statement would be taken for a declaration or a
block, unless something on the edge is wrapped. A function or an object is taken to start its
statement, and wrapped, if the node at each step leads the one around it. The left side of an
assignment is not taken to lead it, so that below an assignment nothing is wrapped but what would be
anyway, for the node around it.

Nodes may stand at several places at once here, as they do where one value is built into another
twice.
-/

import CodeTree.Proofs.Seating
import CodeTree.Proofs.Straying

namespace CodeTree

variable {path : List SlotName} {id : CompositeId}

variable {world : World} {store : Store} {outer root statement : Value} {c : CursorId}
  {answer : Bool} {front slots : List SlotName}

namespace World

/-! ### The cursor of a path -/

/-- Each cursor that is kept stands at what its slot holds. -/
def Exact (world : World) : Prop :=
  ∀ {parent name c}, world.kept? parent name = some c →
    world.store.inner? (world.value parent) name = some (world.value c)

section Exact

variable (sound : Sound world) (fits : Exact world)

include sound fits

/-- A cursor that can be reached is placed at the end of its path. -/
theorem Exact.placed (top : world.above? 0 = none) (living : world.isAlive 0 = true)
    {path : List SlotName} (leads : world.follow? 0 path = some c) :
    world.Placed (world.value 0) path c := by
  refine follow?_induction (motive := fun path c => world.Placed (world.value 0) path c)
    (.top top rfl) ?_ leads
  intro path parent name c toParent kept placed
  obtain ⟨above, bears, _⟩ := sound.kept kept
  exact .step placed (sound.isAlive_of_follow living toParent) above bears (fits kept)

theorem Exact.child (inside : c < world.cursors.size) {name : SlotName} {id : CompositeId}
    (entry : world.store.inner? (world.value c) name = some (.composite id)) :
    Exact (world.child c name).2 ∧ Looks world (world.child c name).2 ∧
      (world.child c name).2.kept? c name = some (world.child c name).1 ∧
      (world.child c name).2.value (world.child c name).1 = .composite id := by
  have cases := world.child_cases c name
  rw [Store.normalName_of_inner? entry, Store.slot_of_inner? entry] at cases
  rcases cases with ⟨kept, keptThere, same, result⟩ | ⟨absent, result⟩
  · rw [result]
    exact ⟨fits, .refl world, keptThere, Value.same_composite_right.mp same⟩
  · -- A cursor that was kept would stand at the composite.
    have unkept : world.kept? c name = none := by
      refine Option.eq_none_iff_forall_ne_some.mpr fun kept keptThere => ?_
      have here := Option.some.inj ((fits keptThere).symm.trans entry)
      have other := absent kept keptThere
      rw [here, Value.same_composite_left.mpr rfl] at other
      cases other
    rw [result]
    have keeps := keeps_addChild world c name (.composite id)
    have more {d : CursorId} {slot : SlotName} {e : CursorId} (kept : world.kept? d slot = some e) :
        (world.addChild c name (.composite id)).2.kept? d slot = some e := by
      rw [kept?_addChild _ _ _ inside, if_neg]
      · exact kept
      · rintro ⟨rfl, rfl⟩
        rw [unkept] at kept
        cases kept
    refine ⟨fun {parent slot d} kept => ?_, ⟨rfl, keeps.value, follow?_mono more,
      quiet_addChild world c name _⟩, ?_, ?_⟩
    · rw [kept?_addChild _ _ _ inside] at kept
      rw [store_addChild]
      split at kept
      · rename_i both
        obtain ⟨rfl, rfl⟩ := both
        cases kept
        rw [keeps.value inside, value_addChild, if_pos rfl]
        exact entry
      · obtain ⟨above, _, old⟩ := sound.kept kept
        rw [keeps.value (Nat.lt_trans (sound.older above) old), keeps.value old]
        exact fits kept
    · rw [kept?_addChild _ _ _ inside, if_pos ⟨rfl, rfl⟩, fst_addChild]
    · rw [fst_addChild, value_addChild, if_pos rfl]

/-- Stepping along a path to a composite leads to a cursor of it. -/
theorem Exact.descend (present : 0 < world.cursors.size) {path : List SlotName}
    (leads : world.follow? 0 path = some c) {rest : List SlotName} {id : CompositeId}
    (there : world.store.part? (world.value c) rest = some (.composite id)) :
    Sound (world.descend c rest).2 ∧ Exact (world.descend c rest).2 ∧
      Looks world (world.descend c rest).2 ∧
      (world.descend c rest).2.follow? 0 (path ++ rest) = some (world.descend c rest).1 := by
  induction rest generalizing world c path with
  | nil =>
    rw [List.append_nil]
    exact ⟨sound, fits, .refl world, leads⟩
  | cons name rest ih =>
    obtain ⟨next, entry, onward⟩ := Option.bind_eq_some_iff.mp there
    -- The way goes on from a composite, or ends at one.
    obtain ⟨nextId, rfl⟩ : ∃ nextId, next = .composite nextId :=
      by_contra fun plain => Store.part?_ne_composite (not_exists.mp plain) id onward
    have inside := sound.lt_size_of_follow present leads
    obtain ⟨fitsNext, looks, kept, here⟩ := fits.child sound inside entry
    obtain ⟨soundEnd, fitsEnd, looksOn, toEnd⟩ := ih
      (sound.child inside name) fitsNext (Nat.lt_of_lt_of_le present looks.quiet.size)
      (follow?_concat.mpr ⟨c, looks.follow leads, kept⟩) (by rw [here, looks.store]; exact onward)
    rw [List.append_assoc, List.singleton_append] at toEnd
    exact ⟨soundEnd, fitsEnd, looks.trans looksOn, toEnd⟩

end Exact

/-- While the cursors above it live, a cursor climbs past all of them. -/
theorem Placed.grounded (placed : world.Placed root path c) (sound : Sound world) :
    Grounded (fun _ => True) world c := by
  induction placed with
  | top topmost _ => exact grounded_top sound topmost
  | step _ living above _ _ ih =>
    exact ih.down sound above living trivial

/-- A world with nothing but a held root cursor at a stored value. -/
def rooted (store : Store) (root : Value) : World :=
  ({ World.empty with store }.addRoot root).2.hold 0

/-- From the root one comes to each composite, at a cursor that is placed there. -/
theorem descend_rooted (there : store.part? root path = some (.composite id))
    (descends : (rooted store root).descend 0 path = (c, world)) :
    Sound world ∧ Fresh (fun _ => True) world ∧ world.store = store ∧ world.Placed root path c := by
  have sound : Sound (rooted store root) :=
    ((sound_bare store #[]).addRoot root).hold (by simp)
  have unkept (d : CursorId) (name : SlotName) : (rooted store root).kept? d name = none := by
    cases d <;> rfl
  have fits : Exact (rooted store root) := by
    intro parent name d kept
    rw [unkept] at kept
    cases kept
  have blank (d : CursorId) : ((rooted store root).cursor d).views = .empty := by
    cases d <;> rfl
  have start : (rooted store root).follow? 0 [] = some 0 := rfl
  obtain ⟨soundEnd, fitsEnd, looks, leads⟩ := fits.descend sound Nat.zero_lt_one start there
  rw [descends] at soundEnd fitsEnd looks leads
  refine ⟨soundEnd, fun d _ => ?_, looks.store, ?_⟩
  · rcases looks.quiet.views d with same | empty
    · rw [same, blank]
      exact truthful_empty _ d
    · rw [empty]
      exact truthful_empty _ d
  · have value : world.value 0 = root := looks.value Nat.zero_lt_one
    have top : world.above? 0 = none := Option.eq_none_iff_forall_ne_some.mpr
      fun parent above => Nat.not_lt_zero parent (soundEnd.older above)
    have held : (rooted store root).isHeld 0 = true := isHeld_of_mem List.mem_cons_self
    rw [← value]
    exact fitsEnd.placed soundEnd top (isAlive_of_isHeld (looks.quiet.isHeld sound held)) leads

end World

namespace Store

/-! ### Left edges -/

/-- The slots on the way from a node to the part whose text comes first in it. There are none if the
text starts with a word or a sign of its own. -/
inductive Leading (store : Store) (node : Value) : List SlotName → Prop
  | sequence (type : store.type? node = some .sequenceExpression) :
      Leading store node [.key "expressions", .index 0]
  | callee (type : store.type? node = some .callExpression) : Leading store node [.key "callee"]
  | object (type : store.type? node = some .memberExpression) : Leading store node [.key "object"]
  | test (type : store.type? node = some .conditionalExpression) : Leading store node [.key "test"]
  | binary (type : store.type? node = some .binaryExpression) : Leading store node [.key "left"]
  | logical (type : store.type? node = some .logicalExpression) : Leading store node [.key "left"]
  | assignment (type : store.type? node = some .assignmentExpression) :
      Leading store node [.key "left"]
  | unary (type : store.type? node = some .unaryExpression)
      (behind : store.isPostfix node = true) : Leading store node [.key "argument"]
  | update (type : store.type? node = some .updateExpression)
      (behind : store.isPostfix node = true) : Leading store node [.key "argument"]

/-- A node on the left edge of a statement: the names on the way to it from the statement, the node
that it is the first part of, and the node itself. -/
structure Stop where
  path : List SlotName
  outer : Value
  node : Value

/-- The left edge of a statement down to some node, from there up: the expression of the statement,
what comes first in it, what comes first in that, and so on. -/
inductive Edge (store : Store) (statement : Value) : List Stop → Prop
  | start {node : Value} (entry : store.inner? statement (.key "expression") = some node) :
      Edge store statement [⟨[.key "expression"], statement, node⟩]
  | step {stop : Stop} {above : List Stop} {slots : List SlotName} {node : Value}
      (edge : Edge store statement (stop :: above)) (leading : store.Leading stop.node slots)
      (first : store.part? stop.node slots = some node) :
      Edge store statement (⟨stop.path ++ slots, stop.node, node⟩ :: stop :: above)

/-- Whether the operator of a node binds less tightly than the one of the node around it. -/
def bindsLess (store : Store) (outer node : Value) : Bool :=
  match store.operatorPrecedence? outer, store.operatorPrecedence? node with
  | some around, some own => own < around
  | _, _ => false

/-- Whether a node on a left edge has to be wrapped for the node around it. -/
def torn (store : Store) (outer node : Value) : Bool :=
  match store.type? node, store.type? outer with
  | some .sequenceExpression, some type => type != .expressionStatement
  | some .assignmentExpression, some type | some .conditionalExpression, some type =>
    [.unaryExpression, .binaryExpression, .logicalExpression, .callExpression,
      .conditionalExpression, .memberExpression].contains type
  | some .binaryExpression, some type | some .logicalExpression, some type =>
    [.unaryExpression, .callExpression, .memberExpression].contains type ||
      [.binaryExpression, .logicalExpression].contains type && store.bindsLess outer node
  | some .unaryExpression, some type => type == .memberExpression
  | _, _ => false

section Leading

variable (leading : store.Leading outer slots)

include leading

/-- A node starts with its first part, and it stands in it as one that leads it; only what is
assigned to is not taken to lead the assignment. -/
theorem Leading.leads (path : List SlotName) :
    store.isNode outer = true ∧ store.isOf .blockStatement outer = false ∧
      store.isOf .expressionStatement outer = false ∧
      store.leads outer (.ofPath (path ++ slots)) = !store.isOf .assignmentExpression outer := by
  cases leading with
  | sequence type =>
    rw [Placement.ofPath_item]
    simp only [isNode, Store.leads, isOf, type]
    exact ⟨rfl, rfl, rfl, rfl⟩
  | unary type behind | update type behind =>
    rw [Placement.ofPath_key]
    rw [isPostfix] at behind
    simp only [isNode, Store.leads, isOf, type, behind]
    exact ⟨rfl, rfl, rfl, rfl⟩
  | callee type | object type | test type | binary type | logical type | assignment type =>
    rw [Placement.ofPath_key]
    simp only [isNode, Store.leads, isOf, type]
    exact ⟨rfl, rfl, rfl, rfl⟩

/-- What something comes first in is an expression, and neither a function nor an object. -/
theorem Leading.expression : ∃ type, store.type? outer = some type ∧
    type.isSubtypeOf .expression = true ∧ type ≠ .identifier ∧
    store.isMistakable outer = false := by
  cases leading with
  | sequence type | callee type | object type | test type | binary type | logical type
  | assignment type | unary type | update type =>
    refine ⟨_, type, rfl, by decide, ?_⟩
    rw [isMistakable, isOf, isOf, type]
    rfl

omit leading in
/-- What holds elements is no node. -/
theorem isNode_of_item {store : Store} {list part : Value} {index : Nat}
    (entry : store.inner? list (.index index) = some part) : store.isNode list = false := by
  cases present : store.contents? list with
  | none =>
    simp [inner?, present] at entry
  | some contents =>
    cases contents with
    | array items =>
      simp only [isNode, isOf, type?, typeName?, member, members?, present]
      rfl
    | object members =>
      rw [inner?_of_contents present] at entry
      cases entry

/-- The node around the first part of a node is that node. -/
theorem Leading.around? {node : Value} {path : List SlotName}
    (there : store.part? root path = some outer) (first : store.part? outer slots = some node) :
    store.around? root (path ++ slots) = some (path, outer) := by
  have isNode := (leading.leads path).1
  have field (key : String) : store.around? root (path ++ [.key key]) = some (path, outer) := by
    rw [around?_concat there, if_pos isNode]
  cases leading with
  | sequence _ =>
    obtain ⟨list, entry, inside⟩ := Option.bind_eq_some_iff.mp first
    obtain ⟨item, among, _⟩ := Option.bind_eq_some_iff.mp inside
    have listed : store.part? root (path ++ [.key "expressions"]) = some list :=
      part?_concat.mpr ⟨outer, there, entry⟩
    rw [List.append_cons, around?_concat listed, isNode_of_item among, if_neg Bool.false_ne_true,
      field]
  | callee | object | test | binary | logical | assignment | unary | update => exact field _

end Leading

section Edge

variable (there : store.part? root front = some statement)
  (type : store.type? statement = some .expressionStatement)

include there

/-- A node on the left edge stands at the end of its path. -/
theorem Edge.part? {stops : List Stop} (edge : store.Edge statement stops) {stop : Stop}
    {above : List Stop} (listed : stops = stop :: above) :
    store.part? root (front ++ stop.path) = some stop.node := by
  induction edge generalizing stop above with
  | start entry =>
    cases listed
    exact part?_concat.mpr ⟨statement, there, entry⟩
  | step edge leading first ih =>
    cases listed
    rw [← List.append_assoc, part?_append, ih rfl, Option.bind_some, first]

include type in
theorem around?_start :
    store.around? root (front ++ [.key "expression"]) = some (front, statement) := by
  have isNode : store.isNode statement = true := by
    rw [isNode, isOf, type]
    rfl
  rw [around?_concat there, if_pos isNode]

end Edge

/-- Whatever is above a node on a left edge is on the edge, too, and something comes first in it. -/
theorem Edge.higher {stops : List Stop} (edge : store.Edge statement stops) {stop : Stop}
    {above : List Stop} (listed : stops = stop :: above) {higher : Stop} (among : higher ∈ above) :
    ∃ rest slots, store.Edge statement (higher :: rest) ∧ store.Leading higher.node slots := by
  induction edge generalizing stop above with
  | start entry =>
    cases listed
    cases among
  | step edge leading first ih =>
    cases listed
    rcases List.mem_cons.mp among with rfl | further
    · exact ⟨_, _, edge, leading⟩
    · exact ih rfl further

/-! ### What is wrapped on an edge -/

/-- A site on a left edge: the expression comes first in the statement or expression around it. -/
inductive OnEdge (store : Store) (site : Site) : Prop
  | statement (around : site.parentType = .expressionStatement)
      (named : site.name? = some (.key "expression"))
  | sequence (around : site.parentType = .sequenceExpression)
  | callee (around : site.parentType = .callExpression) (fills : store.fills site "callee" = true)
  | object (around : site.parentType = .memberExpression) (fills : store.fills site "object" = true)
  | test (around : site.parentType = .conditionalExpression)
      (fills : store.fills site "test" = true)
  | binary (around : site.parentType = .binaryExpression)
      (yields : store.yieldsTo site = store.bindsLess site.parent site.node)
  | logical (around : site.parentType = .logicalExpression)
      (yields : store.yieldsTo site = store.bindsLess site.parent site.node)
  | assignment (around : site.parentType = .assignmentExpression)
  | unary (around : site.parentType = .unaryExpression)
  | update (around : site.parentType = .updateExpression)

namespace OnEdge

variable {site : Site} (onEdge : store.OnEdge site) (type : store.type? site.node = some site.type)
  (parentType : store.type? site.parent = some site.parentType)

include onEdge

theorem ne_new : (site.parentType == .newExpression) = false := by
  cases onEdge <;> simp [*]

include type

theorem parensBySite?_of_mistakable (mistakable : store.isMistakable site.node = true) :
    store.parensBySite? site = none := by
  rcases isMistakable_iff.mp mistakable with own | own <;>
  · rw [own, Option.some.injEq] at type
    simp [parensBySite?, ← type, onEdge.ne_new]

include parentType

/-- Types and slots decide about a node on an edge by whether it is torn, or they decide nothing. -/
theorem parensBySite? (leading : store.Leading site.node slots) :
    store.parensBySite? site = some (store.torn site.parent site.node) ∨
      store.parensBySite? site = none ∧ store.torn site.parent site.node = false := by
  have known {other : NodeType} (own : store.type? site.node = some other) : site.type = other :=
    Option.some.inj (type.symm.trans own)
  cases leading with
  | sequence own | assignment own | test own | binary own | logical own | unary own =>
    left
    simp only [Store.parensBySite?, torn, own, parentType, known own]
    cases onEdge <;> simp [*]
  | callee own | object own | update own =>
    right
    simp [Store.parensBySite?, torn, own, parentType, known own, onEdge.ne_new]

end OnEdge

theorem fills_field {key : String} (held : store.part? outer [.key key] = some (.composite id))
    (type parentType : NodeType) :
    store.fills ⟨.composite id, type, outer, parentType, some (.key key)⟩ key = true := by
  have entry : store.inner? outer (.key key) = some (.composite id) := by
    simpa only [part?, Option.bind_fun_some] using held
  rw [fills, member_eq_composite.mpr entry, Value.same_composite_right.mpr rfl, beq_self_eq_true]
  rfl

theorem yieldsTo_left (store : Store) (node outer : Value) (type parentType : NodeType) :
    store.yieldsTo ⟨node, type, outer, parentType, some (.key "left")⟩ =
      store.bindsLess outer node := by
  unfold yieldsTo bindsLess
  cases store.operatorPrecedence? outer with
  | none => rfl
  | some around =>
    cases store.operatorPrecedence? node with
    | none => rfl
    | some own => simp

/-- What comes first in an expression is a site on an edge. -/
theorem Leading.onEdge (leading : store.Leading outer slots) (type : NodeType)
    (first : store.part? outer slots = some (.composite id)) :
    ∃ parentType, store.type? outer = some parentType ∧
      store.OnEdge ⟨.composite id, type, outer, parentType, slots.getLast?⟩ := by
  cases leading with
  | sequence around => exact ⟨_, around, .sequence rfl⟩
  | callee around => exact ⟨_, around, .callee rfl (fills_field first _ _)⟩
  | object around => exact ⟨_, around, .object rfl (fills_field first _ _)⟩
  | test around => exact ⟨_, around, .test rfl (fills_field first _ _)⟩
  | binary around => exact ⟨_, around, .binary rfl (yieldsTo_left store _ _ _ _)⟩
  | logical around => exact ⟨_, around, .logical rfl (yieldsTo_left store _ _ _ _)⟩
  | assignment around => exact ⟨_, around, .assignment rfl⟩
  | unary around => exact ⟨_, around, .unary rfl⟩
  | update around => exact ⟨_, around, .update rfl⟩

section Edge

variable (there : store.part? root front = some statement)
  (type : store.type? statement = some .expressionStatement) {stop : Stop} {above : List Stop}

include there type

/-- The site of a node on the left edge. -/
theorem Edge.site (edge : store.Edge statement (stop :: above)) {own : NodeType}
    (typed : store.type? stop.node = some own)
    (isExpression : own.isSubtypeOf .expression = true) (named : own ≠ .identifier) :
    ∃ parentType name?, store.type? stop.outer = some parentType ∧
      store.siteAt? root (front ++ stop.path) =
        some ⟨stop.node, own, stop.outer, parentType, name?⟩ ∧
      store.OnEdge ⟨stop.node, own, stop.outer, parentType, name?⟩ := by
  have reached := edge.part? there rfl
  have found {path : List SlotName} {parentType : NodeType}
      (around : store.around? root (front ++ stop.path) = some (path, stop.outer))
      (outer : store.type? stop.outer = some parentType) :
      store.siteAt? root (front ++ stop.path) =
        some ⟨stop.node, own, stop.outer, parentType, (front ++ stop.path).getLast?⟩ := by
    simp [siteAt?, reached, Store.isExpression, isOf, typed, isExpression, named, around, outer]
  cases edge with
  | start entry =>
    refine ⟨_, _, type, found (around?_start there type) type, .statement rfl ?_⟩
    exact List.getLast?_concat
  | @step higher _ slots node edge leading first =>
    obtain ⟨id, _, rfl, _⟩ := exists_members typed
    obtain ⟨parentType, outer, onEdge⟩ := leading.onEdge own first
    have around := leading.around? (edge.part? there rfl) first
    rw [List.append_assoc] at around
    have last : (front ++ (higher.path ++ slots)).getLast? = slots.getLast? := by
      rw [← List.append_assoc]
      cases leading <;> simp
    refine ⟨_, _, outer, found around outer, ?_⟩
    rw [last]
    exact onEdge

/-- A node on the left edge is taken to start its statement unless it stands in an assignment. -/
theorem Edge.startsStatement {stops : List Stop} (edge : store.Edge statement stops)
    (listed : stops = stop :: above) (node : store.isNode stop.node = true) :
    store.startsStatement root (front ++ stop.path) =
      .ok (above.all fun higher => !store.isOf .assignmentExpression higher.node) := by
  induction edge generalizing stop above with
  | start entry =>
    cases listed
    obtain ⟨id, rfl⟩ := exists_id_of_isNode node
    have held := member_eq_composite.mpr entry
    have noBlock : store.isOf .blockStatement statement = false := by
      rw [isOf, type]
      rfl
    have isStatement : store.isOf .expressionStatement statement = true := by
      rw [isOf, type]
      rfl
    rw [startsStatement_of_some (around?_start there type), (Edge.start entry).part? there rfl,
      Placement.ofPath_key, noBlock, isStatement, held, Option.any_some, Option.any_some,
      Value.same_composite_right.mpr rfl]
    rfl
  | @step higher above slots own edge leading first ih =>
    cases listed
    obtain ⟨nodeUp, noBlock, noStatement, leads⟩ := leading.leads (front ++ higher.path)
    rw [← List.append_assoc, startsStatement_of_some (leading.around? (edge.part? there rfl) first),
      noBlock, noStatement, leads, List.all_cons]
    cases assigns : store.isOf .assignmentExpression higher.node with
    | true => rfl
    | false => exact ih rfl nodeUp

variable (edge : store.Edge statement (stop :: above))

include edge

/-- A function or an object on the left edge is wrapped unless it stands in an assignment. -/
theorem Edge.parens_mistakable (mistakable : store.isMistakable stop.node = true) :
    store.parens false root (front ++ stop.path) =
      .ok (above.all fun higher => !store.isOf .assignmentExpression higher.node) := by
  have undecided : store.parensAt? root (front ++ stop.path) = none := by
    rcases isMistakable_iff.mp mistakable with own | own <;>
    · obtain ⟨parentType, name?, _, site, onEdge⟩ := edge.site there type own rfl (by decide)
      rw [parensAt?, site]
      exact onEdge.parensBySite?_of_mistakable own mistakable
  rw [parens, undecided, edge.part? there rfl, Option.any_some, mistakable]
  exact edge.startsStatement there type rfl (isNode_of_isMistakable mistakable)

/-- What something comes first in is wrapped if it is torn. -/
theorem Edge.parens_leading (leading : store.Leading stop.node slots) :
    store.parens false root (front ++ stop.path) = .ok (store.torn stop.outer stop.node) := by
  obtain ⟨own, typed, isExpression, named, harmless⟩ := leading.expression
  obtain ⟨parentType, name?, outer, site, onEdge⟩ := edge.site there type typed isExpression named
  rw [parens, parensAt?, site, edge.part? there rfl, Option.any_some, harmless]
  rcases onEdge.parensBySite? typed outer leading with decided | ⟨undecided, whole⟩
  · dsimp only at decided ⊢
    rw [decided]
  · dsimp only at undecided whole ⊢
    rw [undecided, whole]
    rfl

end Edge

end Store

namespace World

/-- Whether parentheses are needed at the end of a path has one answer, from a root of which nothing
has been asked and along every run. -/
structure ParensAnswered (store : Store) (root : Value) (path : List SlotName) (answer : Bool) :
    Prop where
  afresh : ∃ after, Action.needsParens ((rooted store root).descend 0 path).1 false
    ((rooted store root).descend 0 path).2 = .ok answer after
  along : ∀ {world : World} {c : CursorId}, ViewedRun world → world.store = store →
    world.value 0 = root → world.follow? 0 path = some c → 0 ∈ world.held ∨ c ∈ world.held →
    ∃ after, Action.needsParens c false world = .ok answer after

theorem ParensAnswered.unique {other : Bool} (answered : ParensAnswered store root path answer)
    (answeredToo : ParensAnswered store root path other) : answer = other := by
  obtain ⟨_, first⟩ := answered.afresh
  obtain ⟨_, second⟩ := answeredToo.afresh
  cases first.symm.trans second
  rfl

/-- What is answered at every cursor that is placed at the end of a path. -/
theorem parensAnswered {path : List SlotName} {id : CompositeId}
    (there : store.part? root path = some (.composite id))
    (answers : store.parens false root path = .ok answer) :
    ParensAnswered store root path answer where
  afresh := by
    obtain ⟨sound, fresh, same, placed⟩ := descend_rooted there rfl
    obtain ⟨after, _, result⟩ :=
      Action.needsParens_eq sound fresh (placed.grounded sound) trivial placed false
    rw [same, answers] at result
    exact ⟨after, result⟩
  along {world c} run same value leads held := by
    obtain ⟨coherent, fresh⟩ := run.mindful
    have living := coherent.sound.isAlive_root coherent.top coherent.present leads held
    rw [← same, ← value] at there
    have here := Value.same_composite_left.mp (coherent.same_of_part leads there)
    obtain ⟨after, _, result⟩ := Action.needsParens_eq coherent.sound fresh
      (coherent.grounded held) ⟨path, leads⟩ (coherent.placed living leads here) false
    rw [same, value, answers] at result
    exact ⟨after, result⟩

/-- No statement starts with a function or an object, unless that stands in an assignment. If it
comes first in an expression statement, it is wrapped itself if there is no assignment around it on
the left edge of the statement; and any other node on the edge is wrapped if it is torn by the node
around it. So something is wrapped on the edge down to the function or object just if there is no
assignment on the edge, or some node there is torn. -/
theorem edge_wrapped_iff {store : Store} {root statement : Value} {front : List SlotName}
    (there : store.part? root front = some statement)
    (type : store.type? statement = some .expressionStatement) {stop : Store.Stop}
    {above : List Store.Stop} (edge : store.Edge statement (stop :: above))
    (own : store.type? stop.node = some .functionExpression ∨
      store.type? stop.node = some .objectExpression) :
    ParensAnswered store root (front ++ stop.path)
      (above.all fun higher => !store.isOf .assignmentExpression higher.node) ∧
    (∀ higher ∈ above, ParensAnswered store root (front ++ higher.path)
      (store.torn higher.outer higher.node)) ∧
    ((∃ other ∈ stop :: above, ParensAnswered store root (front ++ other.path) true) ↔
      (∀ higher ∈ above, store.isOf .assignmentExpression higher.node = false) ∨
        ∃ higher ∈ above, store.torn higher.outer higher.node = true) := by
  have lowest : ParensAnswered store root (front ++ stop.path)
      (above.all fun higher => !store.isOf .assignmentExpression higher.node) := by
    have mistakable := Store.isMistakable_iff.mpr own
    obtain ⟨id, composite⟩ := Store.exists_id_of_isNode (Store.isNode_of_isMistakable mistakable)
    exact parensAnswered ((edge.part? there rfl).trans (congrArg some composite))
      (edge.parens_mistakable there type mistakable)
  have others (higher : Store.Stop) (among : higher ∈ above) :
      ParensAnswered store root (front ++ higher.path) (store.torn higher.outer higher.node) := by
    obtain ⟨rest, slots, edgeUp, leading⟩ := edge.higher rfl among
    obtain ⟨_, typed, _⟩ := leading.expression
    obtain ⟨id, _, composite, _⟩ := Store.exists_members typed
    exact parensAnswered ((edgeUp.part? there rfl).trans (congrArg some composite))
      (edgeUp.parens_leading there type leading)
  refine ⟨lowest, others, ?_, ?_⟩
  · rintro ⟨other, listed, wrapped⟩
    rcases List.mem_cons.mp listed with rfl | among
    · left
      have whole := lowest.unique wrapped
      intro higher among
      simpa using List.all_eq_true.mp whole higher among
    · exact .inr ⟨other, among, (others other among).unique wrapped⟩
  · rintro (whole | ⟨higher, among, torn⟩)
    · refine ⟨stop, List.mem_cons_self, ?_⟩
      have all : (above.all fun higher => !store.isOf .assignmentExpression higher.node) = true :=
        List.all_eq_true.mpr fun higher among => by rw [whole higher among, Bool.not_false]
      rw [← all]
      exact lowest
    · refine ⟨higher, List.mem_cons_of_mem _ among, ?_⟩
      rw [← torn]
      exact others higher among

/-- The statement `{}.x = y` -/
def assignedMember : Build.Builder := do
  let object ← Build.objectExpression []
  let target ← Build.memberExpression object (← Build.identifier "x") false
  Build.expressionStatement (← Build.assignmentExpression "=" target (← Build.identifier "y"))

/-- The nodes of the statement, and the list of the object's properties. -/
def assignedStore : Store := ⟨#[
  .array [],
  .object (.ofList [("type", .text "ObjectExpression"), ("properties", .composite 0)]),
  .object (.ofList [("type", .text "Identifier"), ("name", .text "x")]),
  .object (.ofList [("type", .text "MemberExpression"), ("object", .composite 1),
    ("property", .composite 2), ("computed", .bool false)]),
  .object (.ofList [("type", .text "Identifier"), ("name", .text "y")]),
  .object (.ofList [("type", .text "AssignmentExpression"), ("operator", .text "="),
    ("left", .composite 3), ("right", .composite 4)]),
  .object (.ofList [("type", .text "ExpressionStatement"), ("expression", .composite 5)])]⟩

/-- In `{}.x = y` nothing is wrapped, though the statement starts with an object. -/
theorem unwrapped_in_assignment : assignedMember.run .empty = (.composite 6, assignedStore) ∧
    ∃ stop above, assignedStore.Edge (.composite 6) (stop :: above) ∧
      assignedStore.type? stop.node = some .objectExpression ∧
      ∀ other ∈ stop :: above, ParensAnswered assignedStore (.composite 6) other.path false := by
  have edge : assignedStore.Edge (.composite 6) [
      ⟨[.key "expression", .key "left", .key "object"], .composite 3, .composite 1⟩,
      ⟨[.key "expression", .key "left"], .composite 5, .composite 3⟩,
      ⟨[.key "expression"], .composite 6, .composite 5⟩] :=
    .step (.step (.start rfl) (.assignment rfl) rfl) (.object rfl) rfl
  have own : assignedStore.type? (.composite 1) = some .objectExpression := rfl
  obtain ⟨lowest, others, _⟩ := @edge_wrapped_iff assignedStore (.composite 6) (.composite 6) []
    rfl rfl _ _ edge (.inr own)
  refine ⟨rfl, _, _, edge, own, ?_⟩
  intro other listed
  rcases List.mem_cons.mp listed with rfl | among
  · exact lowest
  · have answered := others other among
    rcases List.mem_cons.mp among with rfl | last
    · exact answered
    · cases List.mem_singleton.mp last
      exact answered

end World

end CodeTree
