/-
The place of a node, read off its path. A node stands at the end of a path through arrays and plain
records, and the innermost node on the way is the one around it, however far out that is. Where
memories are true and the cursors above live, a cursor finds that node, and whether the text of its
own node starts a statement follows step by step from the nodes around it.
-/

import CodeTree.Node.Parens
import CodeTree.Proofs.Pruning
import CodeTree.Proofs.Surroundings

namespace CodeTree

variable {world : World} {store : Store} {root : Value} {c : CursorId} {here : CursorId → Prop}
  {front path : List SlotName}

/-- How the end of a path stands below what is around it. -/
def Placement.ofPath (path : List SlotName) : Placement := ⟨path.getLast?, path.dropLast.getLast?⟩

theorem Placement.ofPath_key (path : List SlotName) (key : String) :
    ofPath (path ++ [.key key]) = ⟨some (.key key), path.getLast?⟩ := by
  rw [ofPath, List.getLast?_concat, List.dropLast_concat]

theorem Placement.ofPath_item (path : List SlotName) (key : String) (index : Nat) :
    ofPath (path ++ [.key key, .index index]) = ⟨some (.index index), some (.key key)⟩ := by
  rw [List.append_cons, ofPath, List.getLast?_concat, List.dropLast_concat, List.getLast?_concat]

namespace Store

/-! ### The node around the end of a path -/

/-- Whether a node stands at the end of a path from a value. -/
def nodeAt (store : Store) (root : Value) (path : List SlotName) : Bool :=
  (store.part? root path).any store.isNode

/-- The innermost node around the end of a path, with the path to it. -/
def around? (store : Store) (root : Value) (path : List SlotName) :
    Option (List SlotName × Value) := do
  let front ← (Tree.fronts path).find? (store.nodeAt root)
  let node ← store.part? root front
  return (front, node)

section Around

theorem around?_concat {part : Value} (there : store.part? root path = some part) (name : SlotName) :
    store.around? root (path ++ [name]) =
      if store.isNode part then some (path, part) else store.around? root path := by
  have same : store.nodeAt root path = store.isNode part := by rw [nodeAt, there, Option.any_some]
  rw [around?, Tree.fronts_concat, List.find?_cons, same]
  cases store.isNode part with
  | true => simp [there]
  | false => rfl

theorem around?_eq_some {node : Value} (around : store.around? root path = some (front, node)) :
    (∃ name rest, path = front ++ name :: rest) ∧ store.part? root front = some node ∧
      store.isNode node = true := by
  obtain ⟨other, found, rest⟩ := Option.bind_eq_some_iff.mp around
  obtain ⟨part, there, same⟩ := Option.bind_eq_some_iff.mp rest
  cases same
  have isNode := List.find?_some found
  rw [nodeAt, there, Option.any_some] at isNode
  exact ⟨Tree.mem_fronts (List.mem_of_find?_eq_some found), there, isNode⟩

theorem length_of_around? {node : Value} (around : store.around? root path = some (front, node)) :
    front.length < path.length := by
  obtain ⟨⟨name, rest, rfl⟩, _⟩ := around?_eq_some around
  rw [List.length_append, List.length_cons]
  omega

end Around

/-- What parentheses depend on, for the expression at the end of a path. -/
def siteAt? (store : Store) (root : Value) (path : List SlotName) : Option Site := do
  let node ← store.part? root path
  guard (store.isExpression node)
  let type ← store.type? node
  guard (type != .identifier)
  let (_, parent) ← store.around? root path
  let parentType ← store.type? parent
  return { node, type, parent, parentType, name? := path.getLast? }

/-- What the types and slots alone decide about parentheses around the end of a path. Where no
expression stands in a node, none are needed. -/
def parensAt? (store : Store) (root : Value) (path : List SlotName) : Option Bool :=
  match store.siteAt? root path with
  | none => some false
  | some site => store.parensBySite? site

/-- At the start of a statement a function would be taken for a declaration, an object for a
block. -/
def isMistakable (store : Store) (value : Value) : Bool :=
  store.isOf .functionExpression value || store.isOf .objectExpression value

/-- Whether the text of the node at the end of a path starts a statement. This is decided at the node
around it, or it is left to that node whether it does. It is a fault if the names on the way are those
of a slot of a statement that holds something else. -/
def startsStatement (store : Store) (root : Value) (path : List SlotName) : Except Fault Bool :=
  match _ : store.around? root path with
  | none => .ok true
  | some (front, outer) =>
    if store.isOf .blockStatement outer && (Placement.ofPath path).isFirstOf "body" then
      if (store.part? root path).any (store.item (store.member outer "body") 0).same then .ok true
      else .error .blockSlot
    else if store.isOf .expressionStatement outer &&
        (Placement.ofPath path).isField "expression" then
      if (store.part? root path).any (store.member outer "expression").same then .ok true
      else .error .statementSlot
    else if store.leads outer (.ofPath path) then startsStatement store root front
    else .ok false
termination_by path.length
decreasing_by exact length_of_around? ‹_›

theorem startsStatement_of_none (around : store.around? root path = none) :
    store.startsStatement root path = .ok true := by
  rw [startsStatement]
  split
  · rfl
  · rename_i outside
    cases around.symm.trans outside

theorem startsStatement_of_some {outer : Value}
    (around : store.around? root path = some (front, outer)) :
    store.startsStatement root path =
      if store.isOf .blockStatement outer && (Placement.ofPath path).isFirstOf "body" then
        if (store.part? root path).any (store.item (store.member outer "body") 0).same then .ok true
        else .error .blockSlot
      else if store.isOf .expressionStatement outer &&
          (Placement.ofPath path).isField "expression" then
        if (store.part? root path).any (store.member outer "expression").same then .ok true
        else .error .statementSlot
      else if store.leads outer (.ofPath path) then store.startsStatement root front
      else .ok false := by
  rw [startsStatement]
  split
  · rename_i outside
    cases around.symm.trans outside
  · rename_i outside
    cases around.symm.trans outside
    rfl

/-- Whether parentheses are needed at the end of a path. Where types and slots decide nothing, they
are needed by what would be mistaken at the start of its statement. -/
def parens (store : Store) (inExpression : Bool) (root : Value) (path : List SlotName) :
    Except Fault Bool :=
  match store.parensAt? root path with
  | some answer => .ok answer
  | none =>
    if inExpression || !(store.part? root path).any store.isMistakable then .ok false
    else store.startsStatement root path

end Store

namespace World

/-! ### Cursors in their places -/

theorem parent?_of_topmost (topmost : world.above? c = none) : world.parent? c = none := by
  have absent : (world.cursor c).parent? = none := topmost
  rw [parent?, absent]

/-- A cursor stands at the end of a path from a value: each of the cursors above it lives and holds
what is below it. -/
inductive Placed (world : World) (root : Value) : List SlotName → CursorId → Prop
  | top {c : CursorId} (topmost : world.above? c = none) (here : world.value c = root) :
      Placed world root [] c
  | step {path : List SlotName} {name : SlotName} {c parent : CursorId}
      (placed : Placed world root path parent) (living : world.isAlive parent = true)
      (above : world.above? c = some parent) (bears : world.name? c = some name)
      (slot : world.store.inner? (world.value parent) name = some (world.value c)) :
      Placed world root (path ++ [name]) c

section Placed

variable (placed : world.Placed root path c)

include placed

theorem Placed.part : world.store.part? root path = some (world.value c) := by
  induction placed with
  | top _ here => exact congrArg some here.symm
  | step _ _ _ _ slot ih =>
    exact Store.part?_concat.mpr ⟨_, ih, slot⟩

theorem Placed.glances {after : World} (glances : Glances world after) :
    after.Placed root path c := by
  induction placed with
  | top topmost here =>
    exact .top ((glances.above? _).trans topmost) ((glances.value _).trans here)
  | step _ living above bears slot ih =>
    refine .step ih ((glances.isAlive _).trans living)
      ((glances.above? _).trans above) ((glances.name? _).trans bears) ?_
    rw [glances.store, glances.value, glances.value]
    exact slot

theorem Placed.name? (sound : Sound world) : world.name? c = path.getLast? := by
  cases placed with
  | top topmost _ => exact sound.name?_of_topmost topmost
  | step _ _ _ bears _ => rw [bears, List.getLast?_concat]

theorem Placed.placement (sound : Sound world) : world.placement c = .ofPath path := by
  have name := placed.name? sound
  cases placed with
  | top topmost _ =>
    rw [World.placement, name, parent?_of_topmost topmost]
    rfl
  | step placed living above bears _ =>
    rw [World.placement, name, parent?_of_above? above living, Option.bind_some, placed.name? sound,
      Placement.ofPath, List.dropLast_concat]

/-- The nearest node above a cursor stands at the innermost node around the end of its path. -/
theorem Placed.around (sound : Sound world) :
    Option.Rel (fun parent outer => world.Placed root outer.1 parent ∧
        world.value parent = outer.2 ∧ world.isNodeAt parent = true)
      ((world.chain c).tail.find? world.isNodeAt) (world.store.around? root path) := by
  induction placed with
  | @top c topmost _ =>
    rw [sound.chain_eq, parent?_of_topmost topmost]
    exact .none
  | @step path name c parent placed living above _ _ ih =>
    rw [sound.chain_eq c, parent?_of_above? above living, List.tail_cons, Option.elim,
      Store.around?_concat placed.part, sound.chain_eq parent, List.find?_cons]
    rw [sound.chain_eq parent, List.tail_cons] at ih
    show Option.Rel _ (match world.store.isNode (world.value parent) with
      | true => _
      | false => _) _
    cases node : world.store.isNode (world.value parent) with
    | true => exact .some ⟨placed, rfl, node⟩
    | false => exact ih

theorem Placed.isNodeAt_of_site {site : Store.Site}
    (found : world.store.siteAt? root path = some site) : world.isNodeAt c = true := by
  obtain ⟨part, there, rest⟩ := Option.bind_eq_some_iff.mp found
  obtain ⟨_, expression, _⟩ := Option.bind_eq_some_iff.mp rest
  cases placed.part.symm.trans there
  have isExpression : world.store.isExpression (world.value c) = true := by
    by_contra other
    simp [other] at expression
  obtain ⟨own, typed, derives⟩ := (Option.any_eq_true _ _).mp isExpression
  exact (Option.any_eq_true _ _).mpr ⟨own, typed, NodeType.isSubtypeOf_node derives (by decide)⟩

theorem Placed.site? (sound : Sound world) : world.site? c = world.store.siteAt? root path := by
  have around := placed.around sound
  rw [World.site?, Store.siteAt?, placed.part, placed.name? sound]
  generalize (world.chain c).tail.find? world.isNodeAt = parent? at around ⊢
  generalize world.store.around? root path = outer? at around ⊢
  cases around with
  | none => simp
  | some related => simp [related.2.1]

end Placed

theorem grounded_top (sound : Sound world) (topmost : world.above? c = none) :
    Grounded here world c := by
  intro d member _ parent above
  rw [sound.chain_eq, parent?_of_topmost topmost, Option.elim, List.mem_singleton] at member
  rw [member, topmost] at above
  cases above

theorem Grounded.down (sound : Sound world) {parent : CursorId}
    (grounded : Grounded here world parent) (above : world.above? c = some parent)
    (living : world.isAlive parent = true) (among : here parent) : Grounded here world c := by
  intro d member amongHere higher aboveHere
  rw [sound.chain_eq, parent?_of_above? above living, Option.elim] at member
  rcases List.mem_cons.mp member with rfl | further
  · cases above.symm.trans aboveHere
    exact ⟨among, living⟩
  · exact grounded d further amongHere aboveHere

/-- What matters climbs past cursors that matter too. -/
theorem Grounded.climb (sound : Sound world) {d : CursorId} (grounded : Grounded here world c)
    (among : here c) (member : d ∈ (world.chain c).tail) :
    d < c ∧ here d ∧ Grounded here world d := by
  induction c using sound.line_induction with
  | up c ih =>
    rw [sound.chain_eq c, List.tail_cons] at member
    cases living : world.parent? c with
    | none =>
      rw [living] at member
      cases member
    | some parent =>
      rw [living, Option.elim, sound.chain_eq parent] at member
      have above := above?_of_parent? living
      have older := sound.older above
      have groundedUp := grounded.up sound living
      have amongUp := (grounded c (world.self_mem_chain c) among above).1
      rcases List.mem_cons.mp member with rfl | further
      · exact ⟨older, amongUp, groundedUp⟩
      · obtain ⟨earlier, rest⟩ := ih above groundedUp amongUp (by
          rw [sound.chain_eq parent, List.tail_cons]
          exact further)
        exact ⟨Nat.lt_trans earlier older, rest⟩

/-- The second node on the way out of a node is the nearest above it. -/
theorem second?_of_isNodeAt (node : world.isNodeAt c = true) :
    world.second? c = (world.line c).tail.find? world.isNodeAt := by
  rw [second?, line, getElem?_one_filter_cons, if_pos node, List.tail_cons]

end World

namespace Action

open World

/-- Ends a question as it has been decided. -/
def concluding (after : World) : Except Fault Bool → EStateM.Result (Halt EditError) World Bool
  | .ok answer => .ok answer after
  | .error cause => .error (.fault cause) after

theorem insisted_eq (condition : Bool) (cause : Fault) (world : World) :
    (do insist condition cause; return true : Action Bool) world =
      concluding world (if condition then .ok true else .error cause) := by
  rw [run_bind, run_insist]
  cases condition <;> rfl

/-- What has no type is no expression. -/
theorem needsParens_of_untyped (untyped : world.store.type? (world.value c) = none)
    (inExpression : Bool) : needsParens c inExpression world = .ok false world := by
  have nowhere : world.site? c = none := by
    simp [site?, Store.isExpression, Store.isOf, untyped]
  simp only [needsParens, run_bind, run_get, nowhere, run_pure]

section Queries

variable (sound : Sound world) (fresh : Fresh here world) (grounded : Grounded here world c)
  (among : here c) (node : world.isNodeAt c = true)

include sound fresh grounded among node

/-- A node may start a statement if it is neither a function nor an object. -/
theorem canBeFirst_eq : ∃ after, Learns here world after ∧ canBeFirst c world =
    .ok (!world.store.isMistakable (world.value c)) after := by
  obtain ⟨learns, answers⟩ := node_spec sound fresh grounded
  refine ⟨_, learns, ?_⟩
  simp only [canBeFirst, run_bind, run_ofState, answers among, enclosing?_of_isNodeAt node, run_get,
    run_pure, learns.glances.store, Store.isMistakable]

variable (placed : world.Placed root path c)

include placed

/-- The climb to the start of a statement ends as the path of its cursor has it. -/
theorem isFirst_eq : ∃ after, Learns here world after ∧
    isFirst c world = concluding after (world.store.startsStatement root path) := by
  -- The nodes around come nearer to the root.
  induction length : path.length using Nat.strongRecOn generalizing world path c with
  | ind _ ih =>
    obtain ⟨learns, answers⟩ := parentNode_spec sound fresh grounded
    have above := answers among
    rw [second?_of_isNodeAt node, ← grounded.chain_eq_line sound among] at above
    have placement : (world.parentNode c).2.placement c = .ofPath path :=
      (placed.glances learns.glances).placement (learns.glances.sound sound)
    have around := placed.around sound
    rw [isFirst]
    simp only [run_bind, run_ofState, above]
    cases found : (world.chain c).tail.find? world.isNodeAt with
    | none =>
      cases outside : world.store.around? root path with
      | none => exact ⟨_, learns, by rw [Store.startsStatement_of_none outside]; rfl⟩
      | some outer =>
        rw [found, outside] at around
        cases around
    | some parent =>
      cases outside : world.store.around? root path with
      | none =>
        rw [found, outside] at around
        cases around
      | some outer =>
        rw [found, outside] at around
        obtain ⟨front, outer⟩ := outer
        obtain ⟨placedUp, same, nodeUp⟩ := Option.rel_some_some.mp around
        obtain ⟨older, amongUp, groundedUp⟩ :=
          grounded.climb sound among (List.mem_of_find?_eq_some found)
        simp only [run_bind, run_get, placement, learns.glances.store, learns.glances.value, same,
          if_pos older]
        rw [Store.startsStatement_of_some outside, placed.part, Option.any_some, Option.any_some]
        split
        · exact ⟨_, learns, insisted_eq _ _ _⟩
        · split
          · exact ⟨_, learns, insisted_eq _ _ _⟩
          · split
            · have glances := learns.glances
              obtain ⟨after, onward, climbs⟩ := ih front.length
                (length ▸ Store.length_of_around? outside) (glances.sound sound) learns.fresh
                (glances.grounded groundedUp) amongUp ((glances.isNodeAt parent).trans nodeUp)
                (placedUp.glances glances) rfl
              rw [glances.store] at climbs
              exact ⟨after, ⟨glances.trans onward.glances, onward.fresh⟩, climbs⟩
            · exact ⟨_, learns, rfl⟩

omit node in
/-- The question for parentheses ends as the path of its cursor has it. -/
theorem needsParens_eq (inExpression : Bool) : ∃ after, Learns here world after ∧
    needsParens c inExpression world =
      concluding after (world.store.parens inExpression root path) := by
  have site := placed.site? sound
  rw [Store.parens, Store.parensAt?]
  cases found : world.store.siteAt? root path with
  | none => exact ⟨world, fresh.learns, by simp [needsParens, site, found, concluding]⟩
  | some place =>
    dsimp only
    cases decided : world.store.parensBySite? place with
    | some answer =>
      exact ⟨world, fresh.learns, by simp [needsParens, site, found, decided, concluding]⟩
    | none =>
      cases inExpression with
      | true => exact ⟨world, fresh.learns, by simp [needsParens, site, found, decided, concluding]⟩
      | false =>
        have node := placed.isNodeAt_of_site found
        obtain ⟨mid, learns, can⟩ := canBeFirst_eq sound fresh grounded among node
        have glances := learns.glances
        obtain ⟨after, onward, first⟩ := isFirst_eq (glances.sound sound) learns.fresh
          (glances.grounded grounded) among ((glances.isNodeAt c).trans node)
          (placed.glances glances)
        rw [glances.store] at first
        rw [placed.part, Option.any_some]
        cases mistakable : world.store.isMistakable (world.value c) with
        | true =>
          exact ⟨after, ⟨glances.trans onward.glances, onward.fresh⟩, by
            simp [needsParens, site, found, decided, can, mistakable, first]⟩
        | false =>
          exact ⟨mid, learns, by
            simp [needsParens, site, found, decided, can, mistakable, concluding]⟩

end Queries

end Action

end CodeTree
