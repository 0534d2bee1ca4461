/-
What a cursor remembers of its surroundings, and when that is true. The node that encloses a
cursor, the node around that one and the scopes around the cursor can all be read off the cursors
above it. To ask for them changes nothing but what cursors remember. Where all that is remembered
is true and the cursors above still live, an answer is true, and so is everything that is
remembered afterwards.
-/

import CodeTree.Node.Scope
import CodeTree.Proofs.Terrains

namespace CodeTree

variable {after before world : World} {c d parent : CursorId} {here : CursorId → Prop}
  {kind : ScopeKind}

/-- The cursor, remembering nothing of its surroundings. -/
def Cursor.unviewed (cursor : Cursor) : Cursor := { cursor with views := .empty }

namespace World

/-! ### The line of cursors above a cursor -/

/-- A cursor and the cursors above it, from the inside out, whether they live or not. -/
def line (world : World) (c : CursorId) : List CursorId :=
  c :: match world.above? c with
    | none => []
    | some parent => if parent < c then world.line parent else []
termination_by c

section Line

variable (sound : Sound world)

include sound

theorem Sound.line_eq (c : CursorId) : world.line c = c :: (world.above? c).elim [] world.line := by
  rw [line]
  cases above : world.above? c with
  | none => rfl
  | some parent =>
    dsimp only [Option.elim]
    rw [if_pos (sound.older above)]

theorem Sound.line_induction {motive : CursorId → Prop}
    (up : ∀ c, (∀ {parent}, world.above? c = some parent → motive parent) → motive c)
    (c : CursorId) : motive c := by
  induction c using Nat.strongRecOn with
  | ind c ih =>
    exact up c fun above => ih _ (sound.older above)

theorem Sound.le_of_mem_line (member : d ∈ world.line c) : d ≤ c := by
  induction c using sound.line_induction with
  | up c ih =>
    rw [sound.line_eq c] at member
    rcases List.mem_cons.mp member with rfl | further
    · exact Nat.le_refl _
    · cases above : world.above? c with
      | none =>
        rw [above] at further
        cases further
      | some parent =>
        rw [above] at further
        exact Nat.le_trans (ih above further) (Nat.le_of_lt (sound.older above))

theorem Sound.line_of_above? (above : world.above? c = some parent) :
    world.line c = c :: world.line parent := by
  rw [sound.line_eq c, above]
  rfl

end Line

/-- The line of a cursor is made of what is above the cursor and older ones. -/
theorem line_congr (above : ∀ d ≤ c, after.above? d = before.above? d) :
    after.line c = before.line c := by
  induction c using Nat.strongRecOn with
  | ind c ih =>
    rw [line, line, above c (Nat.le_refl c)]
    cases before.above? c with
    | none => rfl
    | some parent =>
      dsimp only
      split
      · rename_i older
        rw [ih parent older fun d below =>
          above d (Nat.le_trans below (Nat.le_of_lt older))]
      · rfl

theorem self_mem_chain (world : World) (c : CursorId) : c ∈ world.chain c := by
  rw [chain]
  exact List.mem_cons_self

/-! ### What can be read off the line -/

/-- The type of the value at a cursor. -/
def typeAt? (world : World) (c : CursorId) : Option NodeType := world.store.type? (world.value c)

/-- The kind of scope that the value at a cursor establishes. -/
def scopeKindAt? (world : World) (c : CursorId) : Option ScopeKind :=
  world.store.scopeKind? (world.value c)

/-- Those of some cursors whose values establish scopes. -/
def establishing (world : World) (cs : List CursorId) : List CursorId :=
  cs.filter fun c => (world.scopeKindAt? c).isSome

/-- The node that encloses a cursor's slot. -/
def enclosing? (world : World) (c : CursorId) : Option Value :=
  ((world.line c).find? world.isNodeAt).map world.value

/-- The cursor of the second node on the way out of a cursor's slot. -/
def second? (world : World) (c : CursorId) : Option CursorId :=
  ((world.line c).filter world.isNodeAt)[1]?

/-- A scope as the value at a cursor establishes it, inside a number of others. -/
structure Establishes (world : World) (c : CursorId) (outer : Nat) (s : ScopeId) : Prop where
  entered : s < world.scopes.size
  cursor : (world.scope s).cursor = c
  node : (world.scope s).node = world.value c
  kind : world.scopeKindAt? c = some (world.scope s).kind
  depth : (world.scope s).depth = outer
  older : ∀ {parent}, (world.scope s).parent? = some parent → parent < s

/-- A scope and the scopes around it are those that the values at the cursors establish, in
order. -/
inductive Nested (world : World) : List CursorId → Option ScopeId → Prop where
  | outside : Nested world [] none
  | within {c : CursorId} {outer : List CursorId} {s : ScopeId} :
      Establishes world c outer.length s → Nested world outer (world.scope s).parent? →
      Nested world (c :: outer) (some s)

theorem isNodeAt_eq (world : World) (c : CursorId) :
    world.isNodeAt c = (world.typeAt? c).any (fun own => own.isSubtypeOf .node) := rfl

theorem scopeKindAt?_congr (type : after.typeAt? c = before.typeAt? c) :
    after.scopeKindAt? c = before.scopeKindAt? c := by
  have same (kind : NodeType) : after.store.isOf kind (after.value c) =
      before.store.isOf kind (before.value c) :=
    congrArg (fun own? => Option.any (fun own => NodeType.isSubtypeOf own kind) own?) type
  simp only [scopeKindAt?, Store.scopeKind?, same]

/-- What establishes a scope is a node. -/
theorem isNodeAt_of_scopeKindAt? (establishes : world.scopeKindAt? c = some kind) :
    world.isNodeAt c = true := by
  have derived (type : NodeType) (quiet : type.includesComments = false)
      (is : world.store.isOf type (world.value c) = true) : world.isNodeAt c = true := by
    obtain ⟨own, typed, derives⟩ := (Option.any_eq_true _ _).mp is
    exact (Option.any_eq_true _ _).mpr ⟨own, typed, NodeType.isSubtypeOf_node derives quiet⟩
  unfold scopeKindAt? Store.scopeKind? at establishes
  split at establishes
  · exact derived .program (by decide) ‹_›
  · split at establishes
    · exact derived .function (by decide) ‹_›
    · split at establishes
      · exact derived .catchClause (by decide) ‹_›
      · cases establishes

theorem typeAt?_isSome_of_isNodeAt (node : world.isNodeAt c = true) :
    (world.typeAt? c).isSome = true := by
  obtain ⟨own, typed, _⟩ := (Option.any_eq_true _ _).mp node
  exact Option.isSome_iff_exists.mpr ⟨own, typed⟩

/-! ### What remains true of a cursor's surroundings -/

/-- From one world to another, nothing around a cursor changed: the cursors above it are the same,
and so are their types and the values that have one. Scopes were entered at most. -/
structure Undisturbed (c : CursorId) (before after : World) : Prop where
  line : after.line c = before.line c
  type : ∀ d ∈ before.line c, after.typeAt? d = before.typeAt? d
  value : ∀ d ∈ before.line c, (before.typeAt? d).isSome = true → after.value d = before.value d
  scopes : before.scopes.size ≤ after.scopes.size
  scope : ∀ {s}, s < before.scopes.size → after.scope s = before.scope s

namespace Undisturbed

variable (undisturbed : Undisturbed c before after)

include undisturbed

theorem isNodeAt (member : d ∈ before.line c) : after.isNodeAt d = before.isNodeAt d := by
  rw [isNodeAt_eq, isNodeAt_eq, undisturbed.type d member]

theorem enclosing? : after.enclosing? c = before.enclosing? c := by
  have found : (before.line c).find? after.isNodeAt = (before.line c).find? before.isNodeAt := by
    rw [← List.head?_filter, List.filter_congr fun d member => undisturbed.isNodeAt member,
      List.head?_filter]
  rw [World.enclosing?, World.enclosing?, undisturbed.line, found]
  cases outcome : (before.line c).find? before.isNodeAt with
  | none => rfl
  | some d =>
    exact congrArg some (undisturbed.value d (List.mem_of_find?_eq_some outcome)
      (typeAt?_isSome_of_isNodeAt (List.find?_some outcome)))

theorem second? : after.second? c = before.second? c := by
  rw [World.second?, World.second?, undisturbed.line,
    List.filter_congr fun d member => undisturbed.isNodeAt member]

theorem nested {cs : List CursorId} {answer : Option ScopeId} (within : cs ⊆ before.line c)
    (nested : Nested before cs answer) : Nested after cs answer := by
  induction nested with
  | outside => exact .outside
  | @within d outer s establishes _ ih =>
    have member : d ∈ before.line c := within List.mem_cons_self
    have same := undisturbed.scope establishes.entered
    have typed := typeAt?_isSome_of_isNodeAt (isNodeAt_of_scopeKindAt? establishes.kind)
    refine .within ⟨Nat.lt_of_lt_of_le establishes.entered undisturbed.scopes, ?_, ?_, ?_, ?_, ?_⟩ ?_
    · rw [same, establishes.cursor]
    · rw [same, establishes.node, undisturbed.value d member typed]
    · rw [same, scopeKindAt?_congr (undisturbed.type d member), establishes.kind]
    · rw [same, establishes.depth]
    · intro parent outside
      rw [same] at outside
      exact establishes.older outside
    · rw [same]
      exact ih fun e inner => within (List.mem_cons_of_mem _ inner)

theorem establishing : after.establishing (after.line c) = before.establishing (before.line c) := by
  rw [undisturbed.line]
  exact List.filter_congr fun d member => by rw [scopeKindAt?_congr (undisturbed.type d member)]

end Undisturbed

/-! ### Asking changes only what is remembered -/

/-- From one world to another, cursors came to remember other things, and scopes were entered. -/
structure Glances (before after : World) : Prop where
  store : after.store = before.store
  held : after.held = before.held
  size : after.cursors.size = before.cursors.size
  cursor : ∀ c, (after.cursor c).unviewed = (before.cursor c).unviewed
  scopes : before.scopes.size ≤ after.scopes.size
  scope : ∀ {s}, s < before.scopes.size → after.scope s = before.scope s

theorem Glances.refl (world : World) : Glances world world :=
  ⟨rfl, rfl, rfl, fun _ => rfl, Nat.le_refl _, fun _ => rfl⟩

theorem Glances.trans {first second third : World} (left : Glances first second)
    (right : Glances second third) : Glances first third where
  store := right.store.trans left.store
  held := right.held.trans left.held
  size := right.size.trans left.size
  cursor c := (right.cursor c).trans (left.cursor c)
  scopes := Nat.le_trans left.scopes right.scopes
  scope entered :=
    (right.scope (Nat.lt_of_lt_of_le entered left.scopes)).trans (left.scope entered)

theorem glances_modifyViews (world : World) (c : CursorId) (change : Views → Views) :
    Glances world (world.modifyViews c change) where
  store := rfl
  held := rfl
  size := size_modifyCursor world c _
  cursor d := by
    unfold modifyViews
    exact field_modifyCursor Cursor.unviewed world c d fun _ => rfl
  scopes := Nat.le_refl _
  scope _ := rfl

theorem glances_addScope (world : World) (c : CursorId) (kind : ScopeKind)
    (parent? : Option ScopeId) : Glances world (world.addScope c kind parent?).2 where
  store := rfl
  held := rfl
  size := rfl
  cursor _ := rfl
  scopes := by
    simp only [addScope, Array.size_push]
    exact Nat.le_succ _
  scope entered := by
    simp only [addScope, scope, Array.getElem?_push, if_neg (Nat.ne_of_lt entered)]

namespace Glances

variable (glances : Glances before after)

include glances

/-- What does not read the views of a cursor reads the same. -/
theorem field {α : Type} (read : Cursor → α) (blind : ∀ cursor, read cursor.unviewed = read cursor)
    (c : CursorId) : read (after.cursor c) = read (before.cursor c) := by
  rw [← blind, glances.cursor, blind]

section Cursor

variable (c : CursorId)

theorem value : after.value c = before.value c :=
  glances.field Cursor.value (fun _ => rfl) c

theorem name? : after.name? c = before.name? c :=
  glances.field Cursor.name? (fun _ => rfl) c

theorem above? : after.above? c = before.above? c :=
  glances.field Cursor.parent? (fun _ => rfl) c

theorem origin : after.origin c = before.origin c :=
  glances.field Cursor.root (fun _ => rfl) c

theorem kept? (name : SlotName) : after.kept? c name = before.kept? c name :=
  glances.field (fun cursor => cursor.children.get? name) (fun _ => rfl) c

theorem follow? (path : List SlotName) :
    after.follow? c path = before.follow? c path := follow?_congr glances.kept? c path

theorem typeAt? : after.typeAt? c = before.typeAt? c := by
  rw [World.typeAt?, World.typeAt?, glances.store, glances.value]

theorem isNodeAt : after.isNodeAt c = before.isNodeAt c := by
  rw [isNodeAt_eq, isNodeAt_eq, glances.typeAt?]

theorem isHeld : after.isHeld c = before.isHeld c := by
  have same (handle : CursorId) : (after.cursor handle).root = (before.cursor handle).root :=
    glances.origin handle
  simp only [World.isHeld, glances.held, same]

end Cursor

theorem keeps (parent child : CursorId) : after.keeps parent child = before.keeps parent child :=
  glances.field (fun cursor => cursor.children.entries.any (fun entry => entry.2 == child))
    (fun _ => rfl) parent

theorem isAlive (c : CursorId) : after.isAlive c = before.isAlive c := by
  induction c using Nat.strongRecOn with
  | ind c ih =>
    have above : (after.cursor c).parent? = (before.cursor c).parent? := glances.above? c
    rw [World.isAlive, World.isAlive, glances.isHeld, above]
    cases (before.cursor c).parent? with
    | none => rfl
    | some parent =>
      dsimp only
      split
      · rw [glances.keeps, ih parent ‹_›]
      · rfl

theorem parent? (c : CursorId) : after.parent? c = before.parent? c := by
  have above : (after.cursor c).parent? = (before.cursor c).parent? := glances.above? c
  rw [World.parent?, World.parent?, above]
  simp only [glances.isAlive]

theorem chain (c : CursorId) : after.chain c = before.chain c := by
  induction c using Nat.strongRecOn with
  | ind c ih =>
    rw [World.chain, World.chain, glances.parent?]
    cases before.parent? c with
    | none => rfl
    | some parent =>
      dsimp only
      split
      · rw [ih parent ‹_›]
      · rfl

theorem line (c : CursorId) : after.line c = before.line c :=
  line_congr fun d _ => glances.above? d

theorem undisturbed (c : CursorId) : Undisturbed c before after :=
  ⟨glances.line c, fun d _ => glances.typeAt? d, fun d _ _ => glances.value d, glances.scopes,
    glances.scope⟩

theorem sound (sound : Sound before) : Sound after where
  older above := sound.older (glances.above? _ ▸ above)
  named c := by
    rw [glances.name?, glances.above?]
    exact sound.named c
  rooted above := by
    rw [glances.origin, glances.origin]
    exact sound.rooted (glances.above? _ ▸ above)
  topmost inside above := by
    rw [glances.origin]
    exact sound.topmost (glances.size ▸ inside) (glances.above? _ ▸ above)
  kept kept := by
    rw [glances.kept?] at kept
    rw [glances.above?, glances.name?, glances.size]
    exact sound.kept kept
  held member := by
    rw [glances.size]
    exact sound.held (glances.held ▸ member)

end Glances

/-! ### True memories -/

/-- What a cursor remembers is what can be read off the cursors above it. -/
structure Truthful (world : World) (c : CursorId) (views : Views) : Prop where
  node : ∀ {answer}, views.node? = some answer → answer = world.enclosing? c
  parent : ∀ {answer}, views.parent? = some answer → answer = world.second? c
  scope : ∀ {answer}, views.scope? = some answer →
    world.Nested (world.establishing (world.line c)) answer

/-- At certain cursors, all that is remembered is true. -/
def Fresh (here : CursorId → Prop) (world : World) : Prop :=
  ∀ c, here c → Truthful world c (world.cursor c).views

theorem views_of_size_le (outside : world.cursors.size ≤ c) : (world.cursor c).views = .empty := by
  rw [cursor, Array.getElem?_eq_none outside]
  rfl

theorem truthful_empty (world : World) (c : CursorId) : Truthful world c .empty :=
  ⟨nofun, nofun, nofun⟩

theorem Truthful.transfer {views : Views} (truthful : Truthful before c views)
    (undisturbed : Undisturbed c before after) : Truthful after c views where
  node seen := (truthful.node seen).trans undisturbed.enclosing?.symm
  parent seen := (truthful.parent seen).trans undisturbed.second?.symm
  scope seen := by
    rw [undisturbed.establishing]
    exact undisturbed.nested (List.filter_subset_self _) (truthful.scope seen)

/-- A cursor comes to remember something true. -/
theorem Fresh.remember (fresh : Fresh here world) {change : Views → Views}
    (truthful : here c → Truthful world c (change (world.cursor c).views)) :
    Fresh here (world.modifyViews c change) := by
  intro d among
  refine Truthful.transfer ?_ ((glances_modifyViews world c change).undisturbed d)
  rw [modifyViews, cursor_modifyCursor]
  split
  · rename_i both
    rw [both.1] at among ⊢
    exact truthful among
  · exact fresh d among

/-! ### Answers -/

/-- Of the cursors that a cursor climbs past, those that matter have nothing above them but living
cursors that matter too. -/
def Grounded (here : CursorId → Prop) (world : World) (c : CursorId) : Prop :=
  ∀ d ∈ world.chain c, here d → ∀ {parent}, world.above? d = some parent →
    here parent ∧ world.isAlive parent = true

theorem Glances.grounded (glances : Glances before after) (grounded : Grounded here before c) :
    Grounded here after c := by
  intro d member among parent above
  rw [glances.chain] at member
  rw [glances.above?] at above
  rw [glances.isAlive]
  exact grounded d member among above

/-- From one world to another, nothing was learned but what is true. -/
structure Learns (here : CursorId → Prop) (before after : World) : Prop where
  glances : Glances before after
  fresh : Fresh here after

section Answers

theorem Grounded.up (sound : Sound world) (grounded : Grounded here world c)
    (living : world.parent? c = some parent) : Grounded here world parent := by
  intro d member
  refine grounded d ?_
  rw [sound.chain_eq c, living]
  exact List.mem_cons_of_mem _ member

theorem Grounded.parent? (grounded : Grounded here world c) (among : here c) :
    world.parent? c = world.above? c := by
  cases above : world.above? c with
  | none =>
    have absent : (world.cursor c).parent? = none := above
    rw [World.parent?, absent]
  | some parent =>
    exact parent?_of_above? above (grounded c (world.self_mem_chain c) among above).2

/-- The cursors above one that matters all live. -/
theorem Grounded.chain_eq_line (sound : Sound world) (grounded : Grounded here world c)
    (among : here c) : world.chain c = world.line c := by
  induction c using sound.line_induction with
  | up c ih =>
    have living := grounded.parent? among
    rw [sound.chain_eq c, sound.line_eq c, living]
    cases above : world.above? c with
    | none => rfl
    | some parent =>
      rw [above] at living
      exact congrArg (c :: ·) (ih above (grounded.up sound living)
        (grounded c (world.self_mem_chain c) among above).1)

theorem Fresh.learns (fresh : Fresh here world) : Learns here world world :=
  ⟨Glances.refl world, fresh⟩

section Learns

variable (learns : Learns here before world)

include learns

/-- After something was learned, a cursor comes to remember something true. -/
theorem Learns.remember {change : Views → Views}
    (truthful : here c → Truthful world c (change (world.cursor c).views)) :
    Learns here before (world.modifyViews c change) :=
  ⟨learns.glances.trans (glances_modifyViews world c change), learns.fresh.remember truthful⟩

theorem Learns.rememberNode {answer : Option Value} (true : here c → answer = world.enclosing? c) :
    Learns here before
      (world.modifyViews c (fun views => { views with node? := some answer })) := by
  refine learns.remember fun among => ?_
  have truthful := learns.fresh c among
  refine ⟨?_, truthful.parent, truthful.scope⟩
  intro _ told
  cases told
  exact true among

theorem Learns.rememberParent {answer : Option CursorId}
    (true : here c → answer = world.second? c) : Learns here before
      (world.modifyViews c (fun views => { views with parent? := some answer })) := by
  refine learns.remember fun among => ?_
  have truthful := learns.fresh c among
  refine ⟨truthful.node, ?_, truthful.scope⟩
  intro _ told
  cases told
  exact true among

theorem Learns.rememberScope {answer : Option ScopeId}
    (true : here c → world.Nested (world.establishing (world.line c)) answer) : Learns here before
      (world.modifyViews c (fun views => { views with scope? := some answer })) := by
  refine learns.remember fun among => ?_
  have truthful := learns.fresh c among
  refine ⟨truthful.node, truthful.parent, ?_⟩
  intro _ told
  cases told
  exact true among

end Learns

/-! ### The enclosing node -/

theorem enclosing?_of_isNodeAt (node : world.isNodeAt c = true) :
    world.enclosing? c = some (world.value c) := by
  rw [enclosing?, line, List.find?_cons_of_pos node]
  rfl

theorem enclosing?_of_not_isNodeAt (sound : Sound world) (plain : world.isNodeAt c = false) :
    world.enclosing? c = (world.above? c).bind world.enclosing? := by
  rw [enclosing?, sound.line_eq c, List.find?_cons_of_neg (by simp [plain])]
  cases world.above? c <;> rfl

/-- The enclosing node is found, and the cursors on the way come to remember it. -/
theorem node_spec (sound : Sound world) (fresh : Fresh here world)
    (grounded : Grounded here world c) :
    Learns here world (world.node c).2 ∧ (here c → (world.node c).1 = world.enclosing? c) := by
  unfold node
  induction c using sound.line_induction with
  | up c ih =>
    rw [sound.chain_eq c, nodeAlong]
    cases seen : (world.cursor c).views.node? with
    | some remembered => exact ⟨fresh.learns, fun among => (fresh c among).node seen⟩
    | none =>
      dsimp only
      cases node : world.isNodeAt c with
      | true =>
        have true : here c → some (world.value c) = world.enclosing? c :=
          fun _ => (enclosing?_of_isNodeAt node).symm
        exact ⟨fresh.learns.rememberNode true, true⟩
      | false =>
        have outer := enclosing?_of_not_isNodeAt sound node
        cases living : world.parent? c with
        | none =>
          have true (among : here c) : none = world.enclosing? c := by
            rw [outer, ← grounded.parent? among, living]
            rfl
          exact ⟨fresh.learns.rememberNode true, true⟩
        | some parent =>
          have above := above?_of_parent? living
          obtain ⟨learns, answers⟩ := ih above (grounded.up sound living)
          have true (among : here c) :
              (world.nodeAlong (world.chain parent)).1 = world.enclosing? c := by
            rw [outer, above]
            exact answers (grounded c (world.self_mem_chain c) among above).1
          refine ⟨learns.rememberNode fun among => ?_, true⟩
          rw [(learns.glances.undisturbed c).enclosing?]
          exact true among

/-! ### The node around the enclosing one -/

/-- To pass the first match and look for another is to look for the second match. -/
theorem getElem?_one_filter_cons {α : Type} (holds : α → Bool) (first : α) (rest : List α) :
    ((first :: rest).filter holds)[1]? =
      (if holds first then rest
        else (rest.dropWhile fun item => !holds item).tail).find? holds := by
  have next (items : List α) : (items.filter holds)[0]? = items.find? holds := by
    rw [← List.head?_eq_getElem?, List.head?_filter]
  have pass : (rest.filter holds)[1]? =
      (rest.dropWhile fun item => !holds item).tail.find? holds := by
    induction rest with
    | nil => rfl
    | cons item rest ih =>
      cases found : holds item with
      | true =>
        rw [List.filter_cons_of_pos found, List.dropWhile_cons_of_neg (by simp [found]),
          List.tail_cons, List.getElem?_cons_succ, next]
      | false =>
        rw [List.filter_cons_of_neg (by simp [found]), List.dropWhile_cons_of_pos (by simp [found]),
          ih]
  cases found : holds first with
  | true => rw [List.filter_cons_of_pos found, List.getElem?_cons_succ, next, if_pos rfl]
  | false => rw [List.filter_cons_of_neg (by simp [found]), pass, if_neg Bool.false_ne_true]

theorem freshParent?_eq (world : World) (c : CursorId) :
    world.freshParent? c = ((world.chain c).filter world.isNodeAt)[1]? := by
  rw [freshParent?, chain, getElem?_one_filter_cons]
  rfl

/-- The parent node is found. -/
theorem parentNode_spec (sound : Sound world) (fresh : Fresh here world)
    (grounded : Grounded here world c) :
    Learns here world (world.parentNode c).2 ∧
      (here c → (world.parentNode c).1 = world.second? c) := by
  have climbs (among : here c) : world.freshParent? c = world.second? c := by
    rw [freshParent?_eq, grounded.chain_eq_line sound among]
    rfl
  have records := fresh.learns.rememberParent climbs
  unfold parentNode
  cases seen : (world.cursor c).views.parent? with
  | none => exact ⟨records, climbs⟩
  | some remembered =>
    have true (among : here c) := (fresh c among).parent seen
    cases remembered with
    | none => exact ⟨fresh.learns, true⟩
    | some parent =>
      dsimp only
      split
      · exact ⟨fresh.learns, true⟩
      · exact ⟨records, climbs⟩

/-! ### Scopes -/

theorem scope_addScope_self (kind : ScopeKind) (parent? : Option ScopeId) :
    (world.addScope c kind parent?).2.scope world.scopes.size =
      { kind, cursor := c, node := world.value c, parent?
        depth := match parent? with
          | some parent => (world.scope parent).depth + 1
          | none => 0 } := by
  cases parent? <;> simp [addScope, scope]

/-- A scope that is entered inside others is nested in them. -/
theorem Nested.addScope {outer : List CursorId} {enclosing : Option ScopeId}
    (nested : Nested world outer enclosing) (within : outer ⊆ world.line c)
    (opens : world.scopeKindAt? c = some kind) :
    Nested (world.addScope c kind enclosing).2 (c :: outer)
      (some (world.addScope c kind enclosing).1) := by
  have glances := glances_addScope world c kind enclosing
  have entered := @scope_addScope_self world c kind enclosing
  show Nested _ _ (some world.scopes.size)
  refine .within ⟨?_, ?_, ?_, ?_, ?_, ?_⟩ ?_
  · simp [World.addScope]
  · rw [entered]
  · rw [entered]
    exact (glances.value c).symm
  · rw [entered]
    exact opens
  · rw [entered]
    cases nested with
    | outside => rfl
    | within establishes _ => exact congrArg (· + 1) establishes.depth
  · intro parent outside
    rw [entered] at outside
    cases nested with
    | outside => cases outside
    | within establishes _ =>
      cases outside
      exact establishes.entered
  · rw [entered]
    exact (glances.undisturbed c).nested within nested

theorem Learns.addScope (learns : Learns here before world) (kind : ScopeKind)
    (enclosing : Option ScopeId) : Learns here before (world.addScope c kind enclosing).2 := by
  have glances := glances_addScope world c kind enclosing
  refine ⟨learns.glances.trans glances, fun d among => ?_⟩
  exact (learns.fresh d among).transfer (glances.undisturbed d)

/-- The scopes are found, or entered where nobody asked for them before, and the cursors on the way
come to remember theirs. -/
theorem scopeAt_spec (sound : Sound world) (fresh : Fresh here world)
    (grounded : Grounded here world c) :
    Learns here world (world.scopeAt c).2 ∧
      (here c → (world.scopeAt c).2.Nested (world.establishing (world.line c))
        (world.scopeAt c).1) := by
  unfold scopeAt
  induction c using sound.line_induction with
  | up c ih =>
    rw [sound.chain_eq c, scopeAlong]
    cases seen : (world.cursor c).views.scope? with
    | some remembered => exact ⟨fresh.learns, fun among => (fresh c among).scope seen⟩
    | none =>
      dsimp only
      -- What is found above, and in which world.
      obtain ⟨above, enclosing, mid, found, learns, nested⟩ :
          ∃ above enclosing mid, world.scopeAlong ((world.parent? c).elim [] world.chain) =
            (enclosing, mid) ∧ Learns here world mid ∧
            (here c → world.line c = c :: above ∧
              mid.Nested (world.establishing above) enclosing) := by
        cases living : world.parent? c with
        | none =>
          refine ⟨[], none, world, rfl, fresh.learns, fun among => ⟨?_, .outside⟩⟩
          rw [sound.line_eq c, ← grounded.parent? among, living]
          rfl
        | some parent =>
          have above := above?_of_parent? living
          obtain ⟨learns, answers⟩ := ih above (grounded.up sound living)
          refine ⟨world.line parent, _, _, rfl, learns, fun among => ⟨?_, ?_⟩⟩
          · exact sound.line_of_above? above
          · exact answers (grounded c (world.self_mem_chain c) among above).1
      rw [found]
      dsimp only
      have records {answer : Option ScopeId} {last : World} (learns : Learns here world last)
          (true : here c → last.Nested (world.establishing (world.line c)) answer) :
          Learns here world
            (last.modifyViews c (fun views => { views with scope? := some answer })) ∧
          (here c → (last.modifyViews c (fun views => { views with scope? := some answer })).Nested
            (world.establishing (world.line c)) answer) := by
        rw [← (learns.glances.undisturbed c).establishing] at true ⊢
        refine ⟨learns.rememberScope true, fun among => ?_⟩
        exact ((glances_modifyViews last c _).undisturbed c).nested (List.filter_subset_self _)
          (true among)
      have kind : mid.store.scopeKind? (mid.value c) = world.scopeKindAt? c :=
        scopeKindAt?_congr (learns.glances.typeAt? c)
      cases opens : world.scopeKindAt? c with
      | none =>
        rw [opens] at kind
        rw [kind]
        refine records learns fun among => ?_
        rw [(nested among).1, establishing, List.filter_cons_of_neg (by simp [opens])]
        exact (nested among).2
      | some own =>
        rw [opens] at kind
        have node : mid.store.isNode (mid.value c) = true :=
          (learns.glances.isNodeAt c).trans (isNodeAt_of_scopeKindAt? opens)
        rw [kind]
        dsimp only
        rw [if_pos node]
        refine records (learns.addScope own enclosing) fun among => ?_
        rw [(nested among).1, establishing, List.filter_cons_of_pos (by simp [opens])]
        refine (nested among).2.addScope ?_ kind
        rw [learns.glances.line, (nested among).1]
        exact fun d inner => List.mem_cons_of_mem _ (List.filter_subset_self _ inner)

end Answers

end World

end CodeTree
