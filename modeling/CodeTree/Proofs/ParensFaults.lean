/-
Where the question for parentheses ends with a fault. It does so for functions and objects that
stray, and for nothing else: along every run each other cursor gets an answer. The report on a
document visits all expressions, and while it does, filling in defaults moves nothing and makes no
node, so that it ends with a fault exactly if it comes to something that strayed in the document to
begin with. Where each node stands in a field of the node around it, or in an array in such a field,
nothing strays.
-/

import CodeTree.Command.Basic
import CodeTree.Proofs.DispatchLog
import CodeTree.Proofs.Seating
import CodeTree.Proofs.Straying

namespace CodeTree

variable {world : World} {after before store : Store} {part root value : Value} {cause : Fault}
  {path : List SlotName}

namespace Store

/-! ### Straying in a filled store -/

theorem leads_congr {outer : Value} (type : after.type? outer = before.type? outer)
    (behind : after.isPostfix outer = before.isPostfix outer) (placement : Placement) :
    after.leads outer placement = before.leads outer placement := by
  rw [isPostfix, isPostfix] at behind
  simp only [leads, isOf, type, behind]

/-- Straying depends on the nodes around a path, their types and where their operators are. -/
theorem Strays.transfer (around : ∀ path, after.around? root path = before.around? root path)
    (alike : ∀ {path front outer}, before.around? root path = some (front, outer) →
      after.type? outer = before.type? outer ∧ after.isPostfix outer = before.isPostfix outer)
    (strays : before.Strays root cause path) : after.Strays root cause path := by
  induction strays with
  | @block path _ outer there type first apart =>
    refine .block ((around path).trans there) ?_ first apart
    rw [isOf, (alike there).1]
    exact type
  | @statement path _ outer there type field apart =>
    refine .statement ((around path).trans there) ?_ field apart
    rw [isOf, (alike there).1]
    exact type
  | @behind _ path _ outer there leads _ ih =>
    refine .behind ((around path).trans there) ?_ ih
    rw [leads_congr (alike there).1 (alike there).2]
    exact leads

namespace Filled

variable (filled : before.Filled after) (whole : before.Whole root)

include filled whole

theorem part?_of_node (node : after.isNode part = true) (there : after.part? root path = some part) :
    before.part? root path = some part := by
  rcases filled.part?_of_after whole there with old | ⟨bare, _⟩
  · exact old
  · rw [isNode, bare.isOf] at node
    cases node

theorem type?_of_part (there : before.part? root path = some part) :
    after.type? part = before.type? part :=
  filled.type? (known_of_whole (whole.part there))

/-- What comes in is no node, so that nodes stand where they stood. -/
theorem nodeAt (path : List SlotName) : after.nodeAt root path = before.nodeAt root path := by
  unfold Store.nodeAt
  cases there : before.part? root path with
  | some part =>
    rw [filled.part?_of_before there, Option.any_some, Option.any_some]
    exact filled.isOf (known_of_whole (whole.part there)) .node
  | none =>
    cases thereAfter : after.part? root path with
    | none => rfl
    | some part =>
      rw [Option.any_some, Option.any_none]
      cases node : after.isNode part with
      | false => rfl
      | true =>
        rw [filled.part?_of_node whole node thereAfter] at there
        cases there

theorem around? (path : List SlotName) : after.around? root path = before.around? root path := by
  have same : after.nodeAt root = before.nodeAt root := funext (filled.nodeAt whole)
  unfold Store.around?
  rw [same]
  cases found : (Tree.fronts path).find? (before.nodeAt root) with
  | none => rfl
  | some front =>
    have node : before.nodeAt root front = true := List.find?_some found
    obtain ⟨part, there, _⟩ := (Option.any_eq_true _ _).mp node
    simp only [Option.bind_eq_bind, Option.bind_some, there, filled.part?_of_before there]

theorem nodesApart (unshared : before.Unshared root) : after.NodesApart root := by
  intro path other part node first second
  obtain ⟨id, rfl⟩ := exists_id_of_isNode node
  exact unshared (filled.part?_of_node whole node first) (filled.part?_of_node whole node second)

/-- In a filled store the same paths stray. -/
theorem strays_iff (behind : ∀ value, after.isPostfix value = before.isPostfix value)
    {cause : Fault} {path : List SlotName} :
    after.Strays root cause path ↔ before.Strays root cause path := by
  have around := filled.around? whole
  have alike {path front : List SlotName} {outer : Value}
      (there : before.around? root path = some (front, outer)) :
      after.type? outer = before.type? outer ∧ after.isPostfix outer = before.isPostfix outer :=
    ⟨filled.type?_of_part whole (around?_eq_some there).2.1, behind outer⟩
  constructor
  · refine Strays.transfer (fun path => (around path).symm) fun there => ?_
    obtain ⟨type, same⟩ := alike ((around _).symm.trans there)
    exact ⟨type.symm, same.symm⟩
  · exact Strays.transfer around alike

end Filled

/-! ### Direct stores -/

/-- Each node below a value stands in a field of the node around it, or in an array in such a
field. -/
def Direct (store : Store) (root : Value) : Prop :=
  ∀ {path front outer}, store.nodeAt root path = true →
    store.around? root path = some (front, outer) →
    ∃ key, path = front ++ [.key key] ∨ ∃ index, path = front ++ [.key key, .index index]

/-- Where nodes stand directly in the nodes around them, none stray. -/
theorem Direct.not_strays (direct : store.Direct root) (node : store.nodeAt root path = true) :
    ¬store.Strays root cause path := by
  intro strays
  induction strays with
  | @block _ front _ around _ first apart =>
    obtain ⟨key, rfl | ⟨index, rfl⟩⟩ := direct node around
    · simp [Placement.isFirstOf, Placement.ofPath_key] at first
    · rw [Placement.ofPath_item, Placement.isFirstOf, Bool.and_eq_true, beq_iff_eq,
        beq_iff_eq] at first
      rw [Option.some.inj first.1, Option.some.inj first.2] at apart
      exact apart rfl
  | statement around _ field apart =>
    obtain ⟨key, rfl | ⟨index, rfl⟩⟩ := direct node around
    · rw [Placement.ofPath_key, Placement.isField, beq_iff_eq] at field
      rw [Option.some.inj field] at apart
      exact apart rfl
    · simp [Placement.isField, Placement.ofPath_item] at field
  | behind around _ _ ih =>
    obtain ⟨_, there, outerNode⟩ := around?_eq_some around
    refine ih ?_
    rw [nodeAt, there, Option.any_some, outerNode]

end Store

open World

/-! ### The report on a document -/

/-- At the start of a statement a function would be taken for a declaration, an object for a
block. -/
def Tree.isMistakable (tree : Tree) : Bool :=
  tree.isOf .functionExpression || tree.isOf .objectExpression

theorem Store.isMistakable_tree (unshared : store.Unshared value) :
    (store.tree value).isMistakable = store.isMistakable value := by
  rw [Tree.isMistakable, Store.isMistakable, isOf_tree unshared, isOf_tree unshared]

theorem World.Glances.watches {H σ : Type} {session : Session H σ} {after : World}
    (glances : Glances session.world after) (state : σ) :
    session.Watches { session with world := after, state } where
  sound := glances.sound
  keeps := ⟨Nat.le_of_eq glances.size.symm, fun _ => glances.value _, fun _ => glances.above? _,
    fun _ => glances.name? _, fun _ => glances.origin _⟩
  stays := by rw [glances.store]; exact .refl _
  held := by rw [glances.held]
  handlers _ := rfl

namespace ParensReport

variable {τ : Type}

variable {journal : Journal Unit (List ParensEntry) τ} {inExpression : Bool}

/-- The report has one handler, which is for expressions and walks on. -/
def policy : Policy Unit := ⟨.ofList [(.expression, ())], fun _ _ => true⟩

/-- While a value is visited, cursors stay in their seats, and where the store differs from what it
was, defaults have been filled in. -/
structure Lasts (store : Store) (root : Value) (world : World) : Prop where
  seated : Seated root world
  filled : store.Filled world.store
  behind : ∀ value, world.store.isPostfix value = store.isPostfix value
  plain : ∀ value, ∀ key ∈ NodeType.plainKeys, world.store.member value key = store.member value key

section Lasts

variable (lasts : Lasts store root world)

include lasts

theorem Lasts.child (sound : Sound world) (inside : c < world.cursors.size) (name : SlotName) :
    Lasts store root (world.child c name).2 := by
  refine ⟨lasts.seated.child sound inside name, ?_, ?_, ?_⟩
  · rw [store_child]
    exact lasts.filled
  · rw [store_child]
    exact lasts.behind
  · rw [store_child]
    exact lasts.plain

theorem Lasts.fillField (value : Value) (key : String) :
    Lasts store root (world.fillField value key) :=
  ⟨lasts.seated.filled value key, lasts.filled.trans (world.filled_fillField value key),
    fun other => (world.isPostfix_fillField value key other).trans (lasts.behind other),
    fun other own plain =>
      (world.member_fillField_plain value key plain other).trans (lasts.plain other own plain)⟩

end Lasts

/-- The handler breaks off at functions and objects that stray. -/
def Trips (inExpression : Bool) (store : Store) (root : Value) (position : Position)
    (cause : Fault) : Prop :=
  inExpression = false ∧ position.tree.isMistakable = true ∧
    store.Strays root cause position.path

def terms (journal : Journal Unit (List ParensEntry) τ) (inExpression : Bool) (store : Store)
    (root : Value) : Stroll.Terms Unit (List ParensEntry) τ where
  holds := Lasts store root
  seats _ _ _ := True
  policy := policy
  journal := journal
  stops _ position := ∃ cause, Trips inExpression store root position cause
  stopped _ position _ halt _ := ∃ cause, halt = .fault cause ∧
    Trips inExpression store root position cause
  handles _ held := ⟨fun lasts =>
    ⟨lasts.seated.handles held, lasts.filled, lasts.behind, lasts.plain⟩, id⟩
  element sound inside _ _ _ _ := ⟨⟨(·.child sound inside _), id⟩, trivial⟩
  field {world _ c _} key sound inside _ _ _ := by
    refine ⟨⟨fun lasts => ?_, id⟩, trivial⟩
    have filled := Lasts.fillField lasts (world.value c) key
    obtain ⟨store, result⟩ := world.fillField_eq (world.value c) key
    rw [result] at filled ⊢
    exact filled.child (sound.withStore store) inside _
  lets _ _ _ stopped := stopped

/-- The session after a handler has asked whether parentheses are needed. -/
def noted (session : Session Unit (List ParensEntry)) (c : CursorId) (answer : Bool)
    (world : World) : Session Unit (List ParensEntry) :=
  { session with
    world
    state := if answer then session.state ++ [.ofCursor world c] else session.state }

theorem handle_eq (inExpression : Bool) (calls : Calls Unit (List ParensEntry)) (v : VisitorId)
    (c : CursorId) (context : Context) (session : Session Unit (List ParensEntry)) :
    (behaviour inExpression).handle calls v () c ⟨context, session⟩ =
      match Action.needsParens c inExpression session.world with
      | .ok answer after => EStateM.bind (Handling.traverse calls v c) (fun _ => pure .traversed)
          ⟨context, noted session c answer after⟩
      | .error halt after =>
          .error (halt.mapError .edit) ⟨context, { session with world := after }⟩ := by
  simp only [behaviour, EStateM.bind, bind, Handling.onSession, VisitAction.onWorld]
  cases Action.needsParens c inExpression session.world with
  | error halt after => rfl
  | ok answer after => cases answer <;> rfl

/-- A journal in which handlers note what the report does. -/
structure Notes (journal : Journal Unit (List ParensEntry) τ) (inExpression : Bool) (store : Store)
    (root : Value) : Prop where
  opening : ∀ arguments log, journal.opening arguments log = log
  note : ∀ {session : Session Unit (List ParensEntry)} {path c answer after}, Sound session.world →
    Lasts store root session.world → session.world.Rises path c →
    session.world.store.Unshared (session.world.value c) →
    Action.needsParens c inExpression session.world = .ok answer after →
    Glances session.world after →
    journal.view (noted session c answer after).state =
      journal.note () ⟨path, session.world.store.tree (session.world.value c)⟩
        (journal.view session.state)

theorem meets (unshared : store.Unshared root) (whole : store.Whole root)
    (notes : Notes journal inExpression store root) :
    (behaviour inExpression).Meets (terms journal inExpression store root) where
  reset _ _ _ session :=
    ⟨session, ⟨.withState session session.state, .refl _ _⟩, (notes.opening _ _).symm, rfl⟩
  handle calls v _ c context session path _ _ sound lasts _ rises unsharedHere := by
    have seated : Seated root session.world := lasts.seated
    have settles := Action.settles_needsParens (lasts.filled.nodesApart whole unshared) sound
      seated.fresh (rises.grounded sound) trivial (rises.placed seated) inExpression
    simp only [lasts.filled.strays_iff whole lasts.behind,
      ← Store.isMistakable_tree unsharedHere] at settles
    obtain ⟨verdict, after, learns, outcome, faults⟩ := settles
    rw [handle_eq, outcome]
    cases verdict with
    | error cause => exact .stops (fun _ => rfl) ⟨cause, rfl, (faults cause).mp rfl⟩
    | ok answer =>
      have store := learns.glances.store
      have lastsAfter : Lasts _ root after :=
        ⟨seated.learned learns, store ▸ lasts.filled, store ▸ lasts.behind, store ▸ lasts.plain⟩
      exact .of_traverse (fun ⟨cause, broken⟩ => by cases (faults cause).mpr broken) rfl
        ⟨learns.glances.watches _, fun _ => lastsAfter, id⟩
        (notes.note sound lasts rises unsharedHere outcome learns.glances) rfl

/-- A report begins at a root cursor and with nothing noted. -/
abbrev begun (value : Value) (store : Store) : Session Unit (List ParensEntry) :=
  .begun [(.expression, ())] [] value store

theorem lasts_begun (value : Value) (store : Store) :
    Lasts store value (begun value store).world where
  seated := by
    refine ⟨fun {c} inside _ => ?_, fun {c parent name id} above _ _ => ?_, fun c _ => ?_⟩
    · obtain rfl : c = 0 := Nat.lt_one_iff.mp inside
      rfl
    · have top := lt_size_of_above? above
      obtain rfl : c = 0 := Nat.lt_one_iff.mp top
      cases above
    · cases c with
      | zero => exact truthful_empty _ 0
      | succ c => exact truthful_empty _ (c + 1)
  filled := .refl store
  behind _ := rfl
  plain _ _ _ := rfl

/-- The positions that the report on a value comes to, in order. -/
def listing (store : Store) (value : Value) : List Position :=
  policy.positions [] (store.tree value)

/-- The report on a value comes to a function or an object that strays. -/
def Stumbles (store : Store) (value : Value) (cause : Fault) : Prop :=
  ∃ call ∈ policy.invocations (listing store value),
    call.position.tree.isMistakable = true ∧ store.Strays value cause call.position.path

theorem stops_iff : (terms journal inExpression store value).Stops (listing store value) ↔
    inExpression = false ∧ ∃ cause, Stumbles store value cause := by
  constructor
  · rintro ⟨call, among, cause, outside, stray⟩
    exact ⟨outside, cause, call, among, stray⟩
  · rintro ⟨outside, cause, call, among, stray⟩
    exact ⟨call, among, cause, outside, stray⟩

section OfDocument

variable {document : Document} (loaded : (Store.load document).run Store.empty = (value, store))

include loaded

/-- The report on a document is a visit of its tree. -/
theorem ofDocument_of_visit (inExpression : Bool) :
    ofDocument inExpression document =
      match Visitor.visitFrom (behaviour inExpression) 0 (begun value store) with
      | .ok _ after => .ok after.state
      | .error halt _ => .error halt := by
  have opened : Session.ofDocument .expression () ([] : List ParensEntry) document =
      (value, ⟨{ World.empty with store }, #[.ofHandlers [(.expression, ())]], []⟩) := by
    simp only [Session.ofDocument, World.ofDocument, loaded]
  have visited : visit inExpression value
        ⟨{ World.empty with store }, #[.ofHandlers [(.expression, ())]], []⟩ =
      EStateM.bind (fun _ => Visitor.visitFrom (behaviour inExpression) 0 (begun value store))
        (fun _ after => .ok after.state after) (begun value store) := rfl
  -- The equation that would be derived for `ofDocument` is slow to derive.
  delta ofDocument
  rw [opened]
  dsimp only
  rw [visited]
  simp only [EStateM.bind]
  cases Visitor.visitFrom (behaviour inExpression) 0 (begun value store) <;> rfl

/-- The report on a document comes to the positions of its tree. -/
theorem ends_visit (proper : document.isProper = true)
    (notes : Notes journal inExpression store value) :
    ∃ before, journal.view before.state = journal.view [] ∧
      Stroll.Ends (terms journal inExpression store value) store value [] (listing store value) before
        (Visitor.visitFrom (behaviour inExpression) 0 (begun value store)) := by
  have brings := (Store.loaded document proper Store.empty).brings
  rw [loaded] at brings
  have intact := brings.intact value List.mem_cons_self
  have handlers : ((begun value store).visitor 0).handlers =
    (terms journal inExpression store value).policy.handlers := rfl
  obtain ⟨turns, enough⟩ : ∃ turns, (begun value store).world.visitTurns = turns + 1 := ⟨_, rfl⟩
  obtain ⟨before, opens, _, _, ends⟩ := Stroll.ends_start (meets intact.unshared intact.whole notes)
    (Session.sound_begun _ _ value store) (lasts_begun value store) trivial handlers
    (.top Nat.zero_lt_one rfl (isHeld_of_mem List.mem_cons_self)) intact.unshared intact.whole
    (Stroll.affords_of_visitTurns intact.unshared intact.whole (Nat.le_of_eq enough)) [] rfl nofun
  rw [Visitor.visitFrom, enough]
  exact ⟨before, opens.trans (notes.opening _ _),
    ends.imp (fun logs => ⟨logs.toPasses, (List.nil_subperm).trans logs.held, logs.confined,
      logs.log, logs.goesOn, logs.completes⟩) rfl id⟩

/-- A journal in which nothing is noted. -/
def blank : Journal Unit (List ParensEntry) Unit := ⟨fun _ => (), fun _ _ => (), fun _ _ _ => ()⟩

/-- The report on a document ends with a fault if it comes to something that strays. Else it answers,
or it comes to an object whose type names none. -/
theorem ofDocument_spec (proper : document.isProper = true)
    {result : Except (Halt VisitError) (List ParensEntry)}
    (ended : ofDocument inExpression document = result) :
    (∀ cause, result = .error (.fault cause) →
      inExpression = false ∧ Stumbles store value cause) ∧
    (inExpression = false → (∃ cause, Stumbles store value cause) →
      ∃ cause, result = .error (.fault cause)) ∧
    ((∀ cause, result ≠ .error (.fault cause)) →
      if (listing store value).all Position.isKnown then ∃ entries, result = .ok entries
      else ∃ shown, result = .error (.error (.unrecognizedType shown))) := by
  have notes : Notes blank inExpression store value := ⟨fun _ _ => rfl, fun _ _ _ _ _ _ => rfl⟩
  obtain ⟨before, _, ends⟩ := ends_visit loaded proper notes
  rw [ofDocument_of_visit loaded] at ended
  cases outcome : Visitor.visitFrom (behaviour inExpression) 0 (begun value store) with
  | ok answer after =>
    rw [outcome] at ends ended
    obtain ⟨logs, known⟩ := ends
    cases ended
    refine ⟨nofun, fun outside ⟨cause, stumbles⟩ => ?_, fun _ => ?_⟩
    · exact absurd (stops_iff.mpr ⟨outside, cause, stumbles⟩) logs.goesOn
    · exact (if_pos known).mpr ⟨after.state, rfl⟩
  | error halt after =>
    rw [outcome] at ends ended
    cases ended
    rcases ends with ⟨logs, unknown, shown, rfl⟩ | ⟨_, call, among, cause, rfl, outside, stray⟩
    · refine ⟨nofun, fun outside ⟨cause, stumbles⟩ => ?_, fun _ => ?_⟩
      · exact absurd (stops_iff.mpr ⟨outside, cause, stumbles⟩) logs.goesOn
      · exact (if_neg (Bool.eq_false_iff.mp unknown)).mpr ⟨shown, rfl⟩
    · refine ⟨fun other same => ?_, fun _ _ => ⟨cause, rfl⟩, fun unharmed => ?_⟩
      · cases same
        exact ⟨outside, call, among, stray⟩
      · exact absurd rfl (unharmed cause)

end OfDocument

/-- Where nodes stand directly in the nodes around them, the report stumbles over nothing. -/
theorem not_stumbles (unshared : store.Unshared value) (direct : store.Direct value) (cause : Fault) :
    ¬Stumbles store value cause := by
  rintro ⟨call, among, mistakable, strays⟩
  refine direct.not_strays ?_ strays
  obtain ⟨rest, part, position, there, _⟩ := Stroll.exists_of_mem_positions unshared
    (policy.mem_of_mem_invocations among).1
  rw [position] at mistakable ⊢
  rw [Store.nodeAt, show store.part? value ([] ++ rest) = some part from there, Option.any_some]
  refine Store.isNode_of_isMistakable ?_
  rw [← Store.isMistakable_tree (unshared.part there)]
  exact mistakable

end ParensReport

/-- A command for a report ends as the report on the document in the file does. -/
theorem Command.run_parens (file : String) (inExpression : Bool) (content : FileContent) :
    (parens file inExpression).run content =
      match readDocument file content with
      | .ok document =>
        match ParensReport.ofDocument inExpression document with
        | .ok entries => .ok (parensResponse file entries)
        | .error halt => .error (halt.mapError .visit)
      | .error cause => .error (.error cause) := by
  simp only [run, bind, Except.bind]
  cases readDocument file content with
  | error cause => rfl
  | ok document =>
    simp only [Except.mapError]
    cases ParensReport.ofDocument inExpression document <;> rfl

namespace World

/-! ### Questions along a run -/

section Questions

variable (run : ViewedRun world) (held : 0 ∈ world.held)

include run held

/-- To ask whether a node starts its statement is to ask for parent nodes. -/
theorem ViewedRun.isFirst (c : CursorId) : ViewedRun (ended (Action.isFirst c world)) := by
  induction c using Nat.strongRecOn generalizing world with
  | ind c ih =>
    obtain ⟨coherent, fresh⟩ := run.mindful
    have after : ViewedRun (world.parentNode c).2 := run.parent (.inl held)
    have learns := (parentNode_spec coherent.sound fresh (coherent.grounded (c := c) (.inl held))).1
    have heldAfter : 0 ∈ (world.parentNode c).2.held := learns.glances.held ▸ held
    have insisted (condition : Bool) (cause : Fault) : ViewedRun (ended
        ((do Action.insist condition cause; return true : Action Bool) (world.parentNode c).2)) := by
      rw [Action.insisted_eq]
      cases condition <;> exact after
    rw [Action.isFirst]
    simp only [Action.run_bind, Action.run_ofState]
    cases (world.parentNode c).1 with
    | none => exact after
    | some parent =>
      simp only [Action.run_bind, Action.run_get]
      split
      · exact insisted _ _
      · split
        · exact insisted _ _
        · split
          · split
            · rename_i older
              exact ih parent older after heldAfter
            · exact after
          · exact after

/-- To ask for parentheses is to ask for a node and for parent nodes. -/
theorem ViewedRun.needsParens (c : CursorId) (inExpression : Bool) :
    ViewedRun (ended (Action.needsParens c inExpression world)) := by
  obtain ⟨coherent, fresh⟩ := run.mindful
  have after : ViewedRun (world.node c).2 := run.node (.inl held)
  have learns := (node_spec coherent.sound fresh (coherent.grounded (c := c) (.inl held))).1
  have onward := after.isFirst (learns.glances.held ▸ held) c
  have asked : ViewedRun (ended ((do
      if ← Action.canBeFirst c then return false else Action.isFirst c : Action Bool) world)) := by
    simp only [Action.canBeFirst, Action.run_bind, Action.run_ofState]
    cases (world.node c).1 with
    | none => exact after
    | some node =>
      simp only [Action.run_bind, Action.run_get, Action.run_pure]
      split
      · exact after
      · exact onward
  simp only [Action.needsParens, Action.run_bind, Action.run_get]
  cases world.site? c with
  | none => exact run
  | some site =>
    dsimp only
    cases world.store.parensBySite? site with
    | some answer => exact run
    | none =>
      cases inExpression with
      | true => exact run
      | false => exact asked

end Questions

section Answers

variable (run : ViewedRun world) {c : CursorId} (leads : world.follow? 0 path = some c)
  (held : 0 ∈ world.held ∨ c ∈ world.held)

include run leads held

theorem ViewedRun.settles (inExpression : Bool) :
    Action.Settles world.Reachable world (fun cause => inExpression = false ∧
        world.store.isMistakable (world.value c) = true ∧
        world.store.Strays (world.value 0) cause path)
      (Action.needsParens c inExpression world) := by
  obtain ⟨coherent, fresh⟩ := run.mindful
  have living := coherent.sound.isAlive_root coherent.top coherent.present leads held
  exact Action.settles_needsParens (Store.Unshared.nodesApart coherent.unshared) coherent.sound
    fresh (coherent.grounded held) ⟨path, leads⟩ (coherent.placed living leads) inExpression

/-- Along a run, to ask for parentheses is a fault for functions and objects that stray, unless they
are known to stand in an expression. -/
theorem ViewedRun.fault_iff (inExpression : Bool) (cause : Fault) :
    (∃ after, Action.needsParens c inExpression world = .error (.fault cause) after) ↔
      inExpression = false ∧ world.store.isMistakable (world.value c) = true ∧
        world.store.Strays (world.value 0) cause path := by
  obtain ⟨verdict, after, _, outcome, faults⟩ := run.settles leads held inExpression
  rw [outcome]
  refine Iff.trans ?_ (faults cause)
  cases verdict <;> simp [Action.concluding]

theorem ViewedRun.answers (inExpression : Bool) (unharmed : ∀ cause after,
      Action.needsParens c inExpression world ≠ .error (.fault cause) after) :
    ∃ answer after, Action.needsParens c inExpression world = .ok answer after := by
  obtain ⟨verdict, after, _, outcome, _⟩ := run.settles leads held inExpression
  cases verdict with
  | ok answer => exact ⟨answer, after, outcome⟩
  | error cause => exact absurd outcome (unharmed cause after)

/-- In a tree whose nodes stand directly in the nodes around them, parentheses can be asked for
everywhere. -/
theorem ViewedRun.answers_of_direct (direct : world.store.Direct (world.value 0))
    (inExpression : Bool) :
    ∃ answer after, Action.needsParens c inExpression world = .ok answer after := by
  refine run.answers leads held inExpression fun cause after faults => ?_
  obtain ⟨_, mistakable, strays⟩ := (run.fault_iff leads held inExpression cause).mp ⟨after, faults⟩
  have coherent := run.mindful.coherent
  have node := Store.isNode_of_isMistakable mistakable
  obtain ⟨id, here⟩ := Store.exists_id_of_isNode node
  refine direct.not_strays ?_ strays
  rw [Store.nodeAt, coherent.part_of_follow leads here, Option.any_some, ← here]
  exact node

end Answers

/-- To ask for parentheses is a fault exactly for functions and objects that stray, unless they are
known to stand in an expression. Along every run over the tree of a document, each cursor that can
be reached gets an answer otherwise, whatever has been asked before; and the report on a document
ends with a fault exactly if it comes to something that strays, and else it answers, or it comes to
an object whose type names none. Where nodes stand directly in the nodes around them, there are no
faults. -/
theorem parens_fault_where_astray (document : Document) (proper : document.isProper = true)
    (inExpression : Bool) :
    ∃ value store, (Store.load document).run .empty = (value, store) ∧
      ViewedRun (({ World.empty with store }.addRoot value).2.hold 0) ∧
      (∀ {world : World} {path : List SlotName} {c : CursorId}, ViewedRun world →
        world.follow? 0 path = some c → 0 ∈ world.held ∨ c ∈ world.held →
        (∀ cause,
          (∃ after, Action.needsParens c inExpression world = .error (.fault cause) after) ↔
            inExpression = false ∧ world.store.isMistakable (world.value c) = true ∧
              world.store.Strays (world.value 0) cause path) ∧
        ((∀ cause after, Action.needsParens c inExpression world ≠ .error (.fault cause) after) →
          ∃ answer after, Action.needsParens c inExpression world = .ok answer after) ∧
        (world.store.Direct (world.value 0) →
          ∃ answer after, Action.needsParens c inExpression world = .ok answer after) ∧
        (0 ∈ world.held → ViewedRun (ended (Action.needsParens c inExpression world)))) ∧
      (∀ cause, ParensReport.ofDocument inExpression document = .error (.fault cause) →
        inExpression = false ∧ ParensReport.Stumbles store value cause) ∧
      (inExpression = false → (∃ cause, ParensReport.Stumbles store value cause) →
        ∃ cause, ParensReport.ofDocument inExpression document = .error (.fault cause)) ∧
      ((∀ cause, ParensReport.ofDocument inExpression document ≠ .error (.fault cause)) →
        if (ParensReport.listing store value).all Position.isKnown then
          ∃ entries, ParensReport.ofDocument inExpression document = .ok entries
        else
          ∃ shown, ParensReport.ofDocument inExpression document =
            .error (.error (.unrecognizedType shown))) ∧
      (store.Direct value →
        ∀ cause, ParensReport.ofDocument inExpression document ≠ .error (.fault cause)) ∧
      ∀ (file : String) (content : FileContent),
        (Command.parens file inExpression).run content =
          match Command.readDocument file content with
          | .ok document =>
            match ParensReport.ofDocument inExpression document with
            | .ok entries => .ok (Command.parensResponse file entries)
            | .error halt => .error (halt.mapError .visit)
          | .error cause => .error (.error cause) := by
  have intact := (Store.loaded document proper .empty).brings.intact _ List.mem_cons_self
  obtain ⟨faults, stumbles, ends⟩ := ParensReport.ofDocument_spec rfl proper rfl
  refine ⟨_, _, rfl, .start #[] intact.unshared intact.free, fun run leads held => ?_,
    faults, stumbles, ends, fun direct cause ended => ?_, fun file => Command.run_parens file _⟩
  · exact ⟨run.fault_iff leads held inExpression, run.answers leads held inExpression,
      fun direct => run.answers_of_direct leads held direct inExpression,
      fun rooted => run.needsParens rooted _ inExpression⟩
  · exact ParensReport.not_stumbles intact.unshared direct cause (faults cause ended).2

/-- An object in the slot of a statement, but with a record around it that has a slot of the same
name. -/
def strayObject : Document :=
  .nodeOf .expressionStatement
    [("expression", .object [("expression", .nodeOf .objectExpression [])])]

/-- Cursors at the statement, at the record and at the object. -/
def strayWorld : World :=
  ⟨⟨#[.object (.ofList [("type", .text "ObjectExpression")]),
      .object (.ofList [("expression", .composite 0)]),
      .object (.ofList [("type", .text "ExpressionStatement"), ("expression", .composite 1)])]⟩, #[
    ⟨.composite 2, none, none, 0, .ofList [(.key "expression", 1)], .empty⟩,
    ⟨.composite 1, some 0, some (.key "expression"), 0, .ofList [(.key "expression", 2)], .empty⟩,
    ⟨.composite 0, some 1, some (.key "expression"), 0, .empty, .empty⟩], #[], [0]⟩

/-- The object strays, so that to ask for parentheses around it is a fault, unless it is known to
stand in an expression, and the report on the document ends with a fault. -/
theorem faults_at_stray_object : strayObject.isProper = true ∧ ViewedRun strayWorld ∧
    strayWorld.follow? 0 [.key "expression", .key "expression"] = some 2 ∧
    (∃ after, Action.needsParens 2 false strayWorld = .error (.fault .statementSlot) after) ∧
    (∃ answer after, Action.needsParens 2 true strayWorld = .ok answer after) ∧
    ∃ cause, ParensReport.ofDocument false strayObject = .error (.fault cause) := by
  have proper : strayObject.isProper = true := by decide
  have brings := (Store.loaded strayObject proper .empty).brings
  have intact := brings.intact _ (List.mem_singleton_self _)
  obtain ⟨_, _, loaded, start, runs, _, stumbles, _⟩ :=
    parens_fault_where_astray strayObject proper false
  cases loaded
  have strays : strayWorld.store.Strays (.composite 2) .statementSlot
      [.key "expression", .key "expression"] := .statement rfl rfl rfl (by decide)
  have looked : ViewedRun strayWorld := by
    refine start.asked 0 (.getIn [.key "expression", .key "expression"])
      ⟨⟨[], rfl⟩, by decide, ⟨?_, ?_, trivial⟩, List.forall_mem_nil _, brings.fits Store.fits_empty⟩
      nofun intact.unshared
    · intro items position _ named
      cases named
    · intro items position _ named
      cases named
  have leads : strayWorld.follow? 0 [.key "expression", .key "expression"] = some 2 := rfl
  obtain ⟨faults, _⟩ := runs looked leads (.inl (by decide))
  obtain ⟨_, _, _, _, runsInside, _⟩ := parens_fault_where_astray strayObject proper true
  obtain ⟨noFaults, answers, _⟩ := runsInside looked leads (.inl (by decide))
  refine ⟨proper, looked, leads, (faults _).mpr ⟨rfl, rfl, strays⟩, answers ?_, ?_⟩
  · intro cause after outcome
    cases ((noFaults cause).mp ⟨after, outcome⟩).1
  · refine stumbles rfl ⟨.statementSlot, ?_⟩
    have called : (ParensReport.policy.invocations (ParensReport.listing strayWorld.store
        (.composite 2))).map (fun call => (call.position.path, call.position.tree.isMistakable)) =
          [([.key "expression", .key "expression"], true)] := by
      decide +kernel
    obtain ⟨call, among, here⟩ := List.mem_map.mp (called ▸ List.mem_singleton_self _)
    obtain ⟨path, mistakable⟩ := Prod.mk.inj here
    exact ⟨call, among, mistakable, path ▸ strays⟩

end World

end CodeTree
