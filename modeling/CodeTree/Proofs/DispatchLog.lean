/-
The log of a visit is the walk in document order. A visit of a tree that leaves the tree as it is
calls its handlers at the positions of the tree that have one, in document order and each once, and
makes of the state what those calls make of it. If the walk comes to an object whose type names
none, the visit fails there, and only what stands before that object has been noted. Counting is
such a visit: it finds, for each type, how many positions hold a value of it.
-/

import CodeTree.Command.Stats
import CodeTree.Proofs.Strolling

namespace CodeTree

open World

variable {H σ τ : Type}

variable {world : World} {store : Store} {c : CursorId} {calls : Calls H σ} {document : Document}
  {positions : List Position} {turns : Nat} {mid session : Session H σ} {v : VisitorId}

/-! ### Where a visit starts -/

/-- The value that is visited. -/
def VisitTarget.value (world : World) : VisitTarget → Value
  | cursor c => world.value c
  | bare value => value

/-- The names on the way to where a visit starts. The cursor that it starts at is held during the
visit. -/
inductive World.Starts (world : World) : VisitTarget → List SlotName → Prop
  | cursor {root : CursorId} {path : List SlotName} (rises : (world.hold root).Rises path root) :
      Starts world (.cursor root) path
  | bare (value : Value) : Starts world (.bare value) [.key "root"]

/-- A value in a holder of its own, and the cursor of its slot. -/
theorem World.Sound.addHeldBy (sound : Sound world) (value : Value) :
    ∃ contents, (world.addHeldBy value).2.store = world.store.grown contents ∧
      Sound (world.addHeldBy value).2 ∧
      (world.addHeldBy value).2.value (world.addHeldBy value).1 = value ∧
      ((world.addHeldBy value).2.hold (world.addHeldBy value).1).Rises [.key "root"]
        (world.addHeldBy value).1 := by
  let contents : Composite := .object (.ofList [("root", value)])
  let holder : Value := .composite world.store.composites.size
  let rooted : World := ({ world with store := world.store.grown contents }.addRoot holder).2
  have child : world.addHeldBy value = rooted.child world.cursors.size (.key "root") := rfl
  have soundRooted : Sound rooted := (sound.withStore _).addRoot holder
  have inside : world.cursors.size < rooted.cursors.size := by
    show _ < (World.addRoot _ _).2.cursors.size
    rw [size_addRoot]
    exact Nat.lt_succ_self _
  have top : rooted.cursor world.cursors.size = _ :=
    (cursor_addRoot _ holder world.cursors.size).trans (if_pos rfl)
  have above : rooted.above? world.cursors.size = none := by rw [above?, top]
  have here : rooted.value world.cursors.size = holder := by rw [World.value, top]
  have stored : rooted.store.contents? holder = some contents :=
    Store.contents?_grown_self world.store contents
  have normal : rooted.store.normalName (rooted.value world.cursors.size) (.key "root") =
      .key "root" := by
    rw [here, Store.normalName_object stored, SlotName.text]
  have slot : rooted.store.slot (rooted.value world.cursors.size) (.key "root") = value := by
    rw [here, Store.slot_object stored, SlotName.text]
    simp [Assoc.ofList]
  have found := soundRooted.found_child inside normal
  have added := rooted.child_cases world.cursors.size (.key "root")
  rw [normal, slot] at added
  rcases added with ⟨kept, keptThere, _⟩ | ⟨_, result⟩
  · rw [show rooted.kept? world.cursors.size (.key "root") = none from
      (kept?_addRoot _ holder _ _).trans (kept?_of_size_le _ (Nat.le_refl _) _)] at keptThere
    cases keptThere
  · rw [child]
    refine ⟨contents, found.store, found.sound, ?_, ?_⟩
    · rw [result, fst_addChild, value_addChild, if_pos rfl]
    · have origin := (found.sound.rooted found.above).trans
        ((found.keeps.origin inside).trans (soundRooted.topmost inside above))
      show Rises _ ([] ++ [.key "root"]) _
      refine .step (.top (Nat.lt_of_lt_of_le inside found.keeps.size)
        ((found.keeps.above inside).trans above) ?_) found.above found.bears
        (isHeld_of_mem List.mem_cons_self)
      refine List.any_eq_true.mpr ⟨_, List.mem_cons_self, Bool.or_eq_true_iff.mpr (.inr ?_)⟩
      exact beq_iff_eq.mpr origin

namespace Stroll

/-- Ending a visit lets its root go. -/
theorem tidied_finish (v : VisitorId) (root : CursorId) (session : Session H σ) :
    Tidied (·.erase root) session (Visitor.finish v root session) := by
  refine tidied_modifyVisitor v ?_ ?_ ?_ session <;> exact fun _ => rfl

/-- There are turns enough for a visit. -/
theorem affords_of_visitTurns {value : Value} (unshared : world.store.Unshared value)
    (whole : world.store.Whole value) (enough : world.visitTurns ≤ turns + 1) :
    world.store.Affords value turns := by
  rw [visitTurns] at enough
  refine ⟨by omega, fun {path part} there full => ?_⟩
  cases present : world.store.contents? part with
  | none =>
    refine absurd (.inl fun id same => ?_) full
    rw [same] at there present
    exact whole path id there present
  | some contents =>
    have bound := unshared.within there present
    rw [Store.depthBound] at bound
    omega

section Start

theorem passes_started (terms : Terms H σ τ) {root : CursorId} (sound : Sound session.world)
    (inside : root < session.world.cursors.size) :
    Passes terms session (started v root session) := by
  have insideAll : ∀ c ∈ root :: session.world.held, c < session.world.cursors.size :=
    List.forall_mem_cons.mpr ⟨inside, fun c member => sound.held member⟩
  refine ⟨sound.around _ insideAll, terms.handles _ _,
    (Keeps.refl session.world).around _ _ _ _, fun other => ?_⟩
  show ((session.modifyVisitor v _).visitor other).handlers = _
  rw [session.visitor_modifyVisitor]
  split <;> rfl

variable {behaviour : Behaviour H σ} {terms : Terms H σ τ}

variable (meets : behaviour.Meets terms)

include meets

section Cursor

variable {root : CursorId} {path : List SlotName} (sound : Sound session.world)
  (holds : terms.holds session.world) (seat : terms.seats session.world path root)
  (handlers : (session.visitor v).handlers = terms.policy.handlers)
  (rises : (session.world.hold root).Rises path root)
  (unshared : session.world.store.Unshared (session.world.value root))
  (whole : session.world.store.Whole (session.world.value root))
  (affords : session.world.store.Affords (session.world.value root) turns) (arguments : List Value)

include sound holds seat handlers rises unshared whole affords

/-- The visit of the root of a visit goes through the positions from there. -/
theorem ends_root :
    ∃ mid, behaviour.reset v root arguments (started v root session) = .ok () mid ∧
      terms.journal.view mid.state =
        terms.journal.opening arguments (terms.journal.view session.state) ∧
      Passes terms session mid ∧ session.world.store.Stays mid.world.store ∧
      Ends terms session.world.store (session.world.value root) (root :: session.world.held)
        (terms.policy.positions path (session.treeAt root)) mid
        ((Visitor.calls behaviour turns).dispatch v root mid) := by
  have passes := passes_started terms (v := v) sound rises.inside
  have faces : Faces terms v turns (started v root session) path root :=
    ⟨passes.sound, passes.footing.holds holds, passes.footing.seats seat,
      (passes.handlers v).trans handlers, rises, unshared, whole, affords⟩
  obtain ⟨mid, looks, log, reset⟩ := meets.reset v root arguments (started v root session)
  have spares : session.world.store.Spares mid.world.store (session.world.value root) :=
    looks.stays.spares whole
  have value : mid.world.value root = session.world.value root :=
    looks.keeps.value faces.rises.inside
  have ends := (dispatches_and_traverses meets v turns).1 (faces.looks looks)
  rw [value, spares.tree unshared] at ends
  exact ⟨mid, reset, log, passes.trans (passes_of_looks passes.sound looks), looks.stays,
    ends.since looks.stays whole looks.held⟩

/-- A visit that starts at a cursor and does not stop on request goes through the positions from
there. -/
theorem ends_start (rested : (session.visitor v).visiting = false)
    (unasked : ∀ {handler position held through after},
      ¬terms.stopped handler position held (.error (.aborted through)) after) :
    ∃ before, terms.journal.view before.state =
        terms.journal.opening arguments (terms.journal.view session.state) ∧
      Passes terms session before ∧ session.world.store.Stays before.world.store ∧
      Ends terms session.world.store (session.world.value root) session.world.held
        (terms.policy.positions path (session.treeAt root)) before
        ((Visitor.calls behaviour (turns + 1)).start v (.cursor root) arguments session) := by
  obtain ⟨mid, reset, log, passes, stays, ends⟩ := ends_root meets sound holds seat handlers rises
    unshared whole affords arguments
  refine ⟨mid, log, passes, stays, ?_⟩
  show Ends _ _ _ _ _ _ (Visitor.start behaviour (Visitor.calls behaviour turns) v
    (.cursor root) arguments session)
  rw [start_eq behaviour _ rested, VisitTarget.enter]
  refine Ends.tidying ?_ (tidied_finish v root) (fun _ => List.mem_of_mem_erase)
    fun subperm => @subperm_foldl_erase [root] _ _ subperm
  simp only [Visitor.run_apply, EStateM.bind, reset]
  cases outcome : (Visitor.calls behaviour turns).dispatch v root mid with
  | ok _ after =>
    rw [outcome] at ends
    exact ends
  | error halt after =>
    rw [outcome] at ends
    have lasting : Visitor.absorbed root (.error halt after) = .error halt after := by
      rcases ends with ⟨_, _, shown, rfl⟩ | ⟨_, call, _, stopped⟩
      · rfl
      · unfold Visitor.absorbed
        split
        · rename_i same
          cases same
          exact (unasked stopped).elim
        · rfl
    rw [lasting]
    exact ends

end Cursor

omit meets in
/-- A visit of a bare value is a visit of its slot in a holder. -/
theorem start_bare (rested : (session.visitor v).visiting = false) (value : Value)
    (arguments : List Value) :
    (Visitor.calls behaviour (turns + 1)).start v (.bare value) arguments session =
      (Visitor.calls behaviour (turns + 1)).start v (.cursor (session.world.addHeldBy value).1)
        arguments { session with world := (session.world.addHeldBy value).2 } :=
  (start_eq behaviour _ rested (.bare value) arguments).trans
    (@start_eq v _ _ behaviour _ { session with world := (session.world.addHeldBy value).2 }
      rested (.cursor _) arguments).symm

end Start

section Starts

variable {target : VisitTarget} {front : List SlotName}

/-- A visit that starts where one started before. -/
theorem starts_after {before after : World} (sound : Sound before)
    (starts : before.Starts target front) (keeps : before.Keeps after)
    (held : before.held.Subperm after.held) :
    after.Starts target front ∧ target.value after = target.value before := by
  cases starts with
  | bare value => exact ⟨.bare value, rfl⟩
  | @cursor root _ rises =>
    have inside : root < before.cursors.size := rises.inside
    refine ⟨.cursor ?_, keeps.value inside⟩
    refine rises.keeps (sound.around _ ?_) (keeps.around _ _ _ _) ?_
    · exact List.forall_mem_cons.mpr ⟨inside, fun c member => sound.held member⟩
    · exact List.forall_mem_cons.mpr ⟨List.mem_cons_self,
        fun c member => List.mem_cons_of_mem _ (held.subset member)⟩

variable {behaviour : Behaviour H σ} {policy : Policy H} {journal : Journal H σ τ}
  (rested : (session.visitor v).visiting = false) (sound : Sound session.world)
  (handlers : (session.visitor v).handlers = policy.handlers)
  (starts : session.world.Starts target front)
  (unshared : session.world.store.Unshared (target.value session.world))
  (whole : session.world.store.Whole (target.value session.world))
  (enough : session.world.visitTurns ≤ turns) (arguments : List Value)

include rested sound handlers starts unshared whole enough

/-- A visit that looks only goes through the positions from where it starts, and can be started there
once more. -/
theorem ends_starts (meets : behaviour.Meets (.plain policy journal)) : ∃ origin holder held before,
      journal.view before.state = journal.opening arguments (journal.view session.state) ∧
      Passes (.plain policy journal) { session with world := (target.enter session.world).2 }
        before ∧
      session.world.store.Stays before.world.store ∧
      (∀ after, before.world.Keeps after → held.Subperm after.held →
        after.Starts target front ∧ target.value after = target.value session.world) ∧
      Ends (.plain policy journal) origin holder held
        (policy.positions front (session.world.store.tree (target.value session.world))) before
        ((Visitor.calls behaviour turns).start v target arguments session) := by
  obtain ⟨turns, rfl⟩ : ∃ fewer, turns = fewer + 1 := by
    rw [visitTurns] at enough
    exact ⟨turns - 1, by omega⟩
  have affords := affords_of_visitTurns unshared whole enough
  cases starts with
  | cursor rises =>
    obtain ⟨before, opening, passes, stays, ends⟩ := ends_start meets sound trivial trivial handlers
      rises unshared whole affords arguments rested id
    exact ⟨_, _, _, before, opening, passes, stays, fun after keeps held =>
      starts_after sound (.cursor rises) (passes.keeps.trans keeps) held, ends⟩
  | bare value =>
    obtain ⟨contents, store, soundHeld, here, rises⟩ := sound.addHeldBy value
    have spares : session.world.store.Spares (session.world.addHeldBy value).2.store value := by
      intro path part there
      rw [store]
      exact whole.contents?_grown contents there
    obtain ⟨before, opening, passes, stays, ends⟩ := @ends_start _ _ _ turns
      { session with world := (session.world.addHeldBy value).2 } v _ _ meets _ _ soundHeld trivial
      trivial handlers rises
      (by dsimp only; rw [here]; exact spares.unshared unshared)
      (by dsimp only; rw [here]; exact spares.whole whole)
      (by dsimp only; rw [here]; exact spares.affords affords) arguments rested id
    dsimp only [Session.treeAt] at ends
    rw [here, spares.tree unshared] at ends
    rw [start_bare rested]
    refine ⟨_, _, _, before, opening, passes, fun other contents present => stays _ _ ?_,
      fun _ _ _ => ⟨.bare value, rfl⟩, ends⟩
    dsimp only
    rw [store]
    exact session.world.store.stays_grown _ _ _ present

/-- A visit makes of the log what the positions make of it that it goes through from where it
starts. It fails if it comes to an object whose type names none, and else it succeeds and has at most filled
in fields. -/
theorem start_spec (observes : behaviour.Observes policy journal)
    (listed : policy.positions front (session.world.store.tree (target.value session.world)) =
      positions) :
    ∃ after,
      journal.view after.state = journal.record policy positions
        (journal.opening arguments (journal.view session.state)) ∧
      (positions.all Position.isKnown = true →
        session.world.store.Filled after.world.store) ∧
      if positions.all Position.isKnown then
        ∃ answer, (Visitor.calls behaviour turns).start v target arguments session =
          .ok answer after
      else
        ∃ shown, (Visitor.calls behaviour turns).start v target arguments session =
          .error (.error (.unrecognizedType shown)) after := by
  obtain ⟨_, _, _, before, opening, _, stays, _, ends⟩ := ends_starts rested sound handlers
    starts unshared whole enough arguments observes.meets
  rw [listed] at ends
  rw [← opening]
  cases outcome : (Visitor.calls behaviour turns).start v target arguments session with
  | ok answer after =>
    rw [outcome] at ends
    obtain ⟨logs, known⟩ := ends
    refine ⟨after, logs.log, fun clear =>
      ((Store.completes_of_stays stays).trans (logs.completes clear)).filled, ?_⟩
    rw [if_pos known]
    exact ⟨answer, rfl⟩
  | error halt after =>
    rw [outcome] at ends
    rcases ends with ⟨logs, unknown, shown, rfl⟩ | ⟨_, _, _, stopped⟩
    · refine ⟨after, logs.log, fun clear => (Bool.false_ne_true (unknown.symm.trans clear)).elim, ?_⟩
      rw [unknown, if_neg Bool.false_ne_true]
      exact ⟨shown, rfl⟩
    · exact stopped.elim

end Starts

end Stroll

section Traverse

variable {result : EStateM.Result (Halt VisitError) (Frame H σ) Verdict}

/-- A handler that has the children of its node walked and is done. -/
theorem Handling.traversed_of_eq {context : Context}
    (handled : result = EStateM.bind (Handling.traverse calls v c) (fun _ => pure .traversed)
      ⟨context, session⟩) :
    match calls.traverse v c session with
    | .ok _ after => ∃ context, result = .ok .traversed ⟨context, after⟩ ∧
        context.mustTraverse = false
    | .error halt after => ∃ context, result = .error halt ⟨context, after⟩ := by
  simp only [EStateM.bind, bind, Handling.traverse, Handling.markTraversed, Handling.onSession,
    modify, modifyGet, MonadStateOf.modifyGet, modifyGet_apply] at handled
  cases outcome : calls.traverse v c session with
  | ok _ after =>
    rw [outcome] at handled
    exact ⟨_, handled, rfl⟩
  | error halt after =>
    rw [outcome] at handled
    exact ⟨_, handled⟩

/-- A handler that has looked and noted what it found, and then has the children of its node walked
and is done. -/
theorem Stroll.Terms.Handles.of_traverse {terms : Terms H σ τ} {handler : H} {position : Position}
    {context : Context} (goesOn : ¬terms.stops handler position)
    (walked : terms.policy.descends handler position.tree = true) (looks : terms.Looks session mid)
    (log : terms.journal.view mid.state =
      terms.journal.note handler position (terms.journal.view session.state))
    (handled : result = EStateM.bind (Handling.traverse calls v c) (fun _ => pure .traversed)
      ⟨context, mid⟩) : terms.Handles session handler position (calls.traverse v c) result := by
  have traversed := Handling.traversed_of_eq handled
  refine .walks goesOn walked looks log ?_
  cases outcome : calls.traverse v c mid with
  | ok _ after =>
    rw [outcome] at traversed
    obtain ⟨context, result, settled⟩ := traversed
    exact ⟨_, context, after, ⟨.withState after after.state, id, id⟩, rfl, result,
      .inl ⟨rfl, settled⟩⟩
  | error halt after =>
    rw [outcome] at traversed
    exact traversed

/-- A handler that has looked, and then has the children of its node walked and is done. -/
theorem Handling.walks_of_eq {view : σ → τ} {log : τ} (watches : session.Watches mid)
    (noted : view mid.state = log) (context : Context)
    (handled : result = EStateM.bind (Handling.traverse calls v c) (fun _ => pure .traversed)
      ⟨context, mid⟩) : Handling.Walks view session log (calls.traverse v c) result := by
  have traversed := traversed_of_eq handled
  refine ⟨mid, watches, noted, ?_⟩
  cases outcome : calls.traverse v c mid with
  | ok _ after =>
    rw [outcome] at traversed
    obtain ⟨context, result, settled⟩ := traversed
    exact ⟨_, context, after, .withState after after.state, rfl, result, .inl ⟨rfl, settled⟩⟩
  | error halt after =>
    rw [outcome] at traversed
    exact traversed

end Traverse

/-- A visit from a cursor by the first visitor, with turns for all that it may come to. -/
abbrev Visitor.visitFrom (behaviour : Behaviour H σ) (root : CursorId) (session : Session H σ) :
    Ended H σ Value :=
  (Visitor.calls behaviour session.world.visitTurns).start 0 (.cursor root) [] session

/-! ### A visit of a stored value -/

/-- A session of one visitor over a stored value and nothing else, with a root cursor at the
value. -/
def Session.begun (handlers : List (NodeType × H)) (state : σ) (value : Value) (store : Store) :
    Session H σ where
  world := ({ World.empty with store }.addRoot value).2
  visitors := #[.ofHandlers handlers]
  state := state

section Begun

variable (handlers : List (NodeType × H)) (state : σ) (value : Value) (store : Store)

theorem Session.sound_begun : Sound (begun handlers state value store).world :=
  (sound_bare store #[]).addRoot value

theorem Session.starts_begun : (begun handlers state value store).world.Starts (.cursor 0) [] :=
  .cursor (.top Nat.zero_lt_one rfl (isHeld_of_mem List.mem_cons_self))

end Begun

/-! ### Counting -/

/-- Every type derives from that of all values that can be printed. -/
theorem NodeType.isSubtypeOf_printable (type : NodeType) : type.isSubtypeOf .printable = true := by
  cases type <;> rfl

/-- The type key of a typed tree holds the name of its type. -/
theorem Tree.text?_type {tree : Tree} {own : NodeType} (typed : tree.type? = some own) :
    (tree.member "type").text? = some own.name := by
  obtain ⟨name, text, named⟩ := Option.bind_eq_some_iff.mp typed
  have same : own.name = name := by simpa using List.find?_some named
  rw [text, same]

namespace Stats

/-- Counting has one handler, which is for all types and walks on. -/
def policy : Policy Unit := ⟨.ofList [(.printable, ())], fun _ _ => true⟩

/-- The handler counts the name under the type key. -/
def journal : Journal Unit Counts Counts where
  view := id
  opening _ counts := counts
  note _ position counts :=
    match (position.tree.member "type").text? with
    | some name => bump counts name
    | none => counts

theorem handler?_policy (tree : Tree) :
    policy.handler? tree = tree.type?.map fun _ => (.printable, ()) := by
  rw [show policy = .single .printable from rfl, Policy.handler?_single, Tree.isOf]
  cases tree.type? with
  | none => rfl
  | some own => rw [Option.any_some, own.isSubtypeOf_printable, if_pos rfl, Option.map_some]

theorem observes : behaviour.Observes policy journal where
  reset _ _ _ session := ⟨session, .withState session session.state, rfl, rfl⟩
  skips _ _ _ _ _ _ _ skipped := by cases skipped
  walks calls v _ c context session unshared _ := by
    have text : ((session.world.store.tree (session.world.value c)).member "type").text? =
        session.world.store.typeName? (session.world.value c) := by
      rw [Store.member_tree unshared, Store.text?_tree]
      rfl
    refine Handling.walks_of_eq (.withState session _) rfl context ?_
    simp only [behaviour, journal, text, EStateM.bind, bind, Handling.session,
      Handling.onSession, get, getThe, MonadStateOf.get, get_apply]
    cases session.world.store.typeName? (session.world.value c) <;> rfl

/-- How many positions hold a value of a type, given by its name. -/
def tally (positions : List Position) (name : String) : Nat :=
  positions.countP fun position => position.tree.type?.map NodeType.name == some name

/-- Counting adds to what has been counted. -/
theorem get?_record (known : positions.all Position.isKnown = true) (counts : Counts)
    (name : String) :
    (journal.record policy positions counts).get? name =
      if tally positions name = 0 then counts.get? name
      else some ((counts.get? name).getD 0 + tally positions name) := by
  induction positions generalizing counts with
  | nil => rfl
  | cons position rest ih =>
    rw [List.all_cons, Bool.and_eq_true] at known
    have handler := handler?_policy position.tree
    cases typed : position.tree.type? with
    | none =>
      rw [typed] at handler
      rw [journal.record_cons_none policy known.1 handler, ih known.2, tally,
        tally, List.countP_cons_of_neg]
      simp [typed]
    | some own =>
      rw [typed] at handler
      have noted : journal.note () position counts = bump counts own.name := by
        simp only [journal, Tree.text?_type typed]
      rw [journal.record_cons_some policy handler, ih known.2, noted, bump,
        Assoc.get?_insert, tally, tally]
      by_cases same : name = own.name
      · rw [List.countP_cons_of_pos (by simp [typed, same]), if_pos same,
          if_neg (Nat.succ_ne_zero _), same]
        split
        · rename_i none
          rw [none]
        · rw [Option.getD_some]
          congr 1
          omega
      · rw [List.countP_cons_of_neg (by simp [typed, Ne.symm same]), if_neg same]

/-- Counting starts at a root cursor and with nothing counted. -/
abbrev begun (value : Value) (store : Store) : Session Unit Counts :=
  .begun [(.printable, ())] Assoc.empty value store

section OfDocument

variable {value : Value} (loaded : (Store.load document).run Store.empty = (value, store))

include loaded

/-- Counting a document is a visit of its tree. -/
theorem ofDocument_of_visit {result : Ended Unit Counts Value}
    (visited : Visitor.visitFrom behaviour 0 (begun value store) = result) :
    (∀ answer after, result = .ok answer after → ofDocument document =
      .ok (after.state.entries.mergeSort fun left right => left.1 ≤ right.1)) ∧
    ∀ halt after, result = .error halt after → ofDocument document = .error halt := by
  have opened : Session.ofDocument .printable () (Assoc.empty : Counts) document =
      (value, ⟨{ World.empty with store }, #[.ofHandlers [(.printable, ())]], Assoc.empty⟩) := by
    simp only [Session.ofDocument, World.ofDocument, loaded]
  have counted : visit value
        ⟨{ World.empty with store }, #[.ofHandlers [(.printable, ())]], Assoc.empty⟩ =
      EStateM.bind (fun _ => Visitor.visitFrom behaviour 0 (begun value store))
        (fun _ after =>
          .ok (after.state.entries.mergeSort fun left right => left.1 ≤ right.1) after)
        (begun value store) := rfl
  -- The equation that would be derived for `ofDocument` is slow to derive.
  delta ofDocument
  rw [opened]
  dsimp only
  rw [counted]
  simp only [EStateM.bind, visited]
  constructor
  · rintro answer after rfl
    rfl
  · rintro halt after rfl
    rfl

end OfDocument

/-- The counts of a document, in terms of the positions of its tree. -/
theorem ofDocument_spec (proper : document.isProper = true) {value : Value}
    (loaded : (Store.load document).run Store.empty = (value, store))
    (listed : policy.positions [] (store.tree value) = positions) :
    if positions.all Position.isKnown then
      ∃ counts, ofDocument document = .ok counts ∧ (counts.map Prod.fst).Nodup ∧
        ∀ name number, (name, number) ∈ counts ↔ 0 < number ∧ number = tally positions name
    else ∃ shown, ofDocument document = .error (.error (.unrecognizedType shown)) := by
  have brings := (Store.loaded document proper Store.empty).brings
  rw [loaded] at brings
  have intact := brings.intact value List.mem_cons_self
  have handlers : ((begun value store).visitor 0).handlers = policy.handlers := rfl
  obtain ⟨after, log, _, outcome⟩ := Stroll.start_spec rfl
    (Session.sound_begun _ _ value store) handlers (Session.starts_begun _ _ value store)
    intact.unshared intact.whole (Nat.le_refl _) [] observes listed
  by_cases known : positions.all Position.isKnown = true
  · rw [if_pos known] at outcome ⊢
    obtain ⟨answer, ended⟩ := outcome
    rw [(ofDocument_of_visit loaded ended).1 _ _ rfl]
    have log : after.state = journal.record policy positions Assoc.empty := log
    refine ⟨_, rfl, ?_, fun name number => ?_⟩
    · exact ((List.mergeSort_perm _ _).map Prod.fst).nodup_iff.mpr after.state.distinct
    · rw [List.mem_mergeSort, Assoc.mem_entries, log, get?_record known, Assoc.get?_empty,
        Option.getD_none, Nat.zero_add]
      split
      · rename_i none
        rw [none]
        simp only [reduceCtorEq, false_iff, not_and]
        omega
      · rw [Option.some.injEq]
        omega
  · rw [if_neg known] at outcome ⊢
    obtain ⟨shown, ended⟩ := outcome
    exact ⟨shown, (ofDocument_of_visit loaded ended).2 _ _ rfl⟩

end Stats

/-! ### The log of a visit -/

/-- Handlers for some types, each known by the type that it is declared for. -/
def Policy.ofTypes (types : List NodeType) (descends : NodeType → Tree → Bool) : Policy NodeType :=
  ⟨.ofList (types.map fun type => (type, type)), descends⟩

section OfTypes

variable (types : List NodeType) (descends : NodeType → Tree → Bool)

theorem Policy.get?_ofTypes (declared : NodeType) :
    (ofTypes types descends).handlers.get? declared =
      if declared ∈ types then some declared else none := by
  have inserted (map : Assoc NodeType NodeType) :
      ((types.map fun type => (type, type)).foldl (fun map pair => map.insert pair.1 pair.2)
        map).get? declared = if declared ∈ types then some declared else map.get? declared := by
    induction types generalizing map with
    | nil => rfl
    | cons first rest ih =>
      rw [List.map_cons, List.foldl_cons, ih, Assoc.get?_insert]
      by_cases same : declared = first <;> simp [same]
  exact inserted Assoc.empty

theorem Policy.mem_keys_ofTypes {declared : NodeType} :
    declared ∈ (ofTypes types descends).handlers.keys ↔ declared ∈ types := by
  have found := get?_ofTypes types descends declared
  constructor
  · intro member
    obtain ⟨⟨key, handler⟩, inside, rfl⟩ := List.mem_map.mp member
    rw [Assoc.mem_entries.mp inside] at found
    by_contra absent
    rw [if_neg absent] at found
    cases found
  · intro member
    rw [if_pos member] at found
    exact List.mem_map.mpr ⟨_, Assoc.mem_entries.mpr found, rfl⟩

/-- The positions with a handler are those of a subtype of some declared type. -/
theorem Policy.isSome_invocation?_ofTypes (position : Position) :
    ((ofTypes types descends).invocation? position).isSome = true ↔
      ∃ own declared, position.tree.type? = some own ∧ declared ∈ types ∧
        own.isSubtypeOf declared = true := by
  rw [isSome_invocation?]
  constructor
  · rintro ⟨own, declared, typed, among, derives⟩
    exact ⟨own, declared, typed, (mem_keys_ofTypes types descends).mp among, derives⟩
  · rintro ⟨own, declared, typed, among, derives⟩
    exact ⟨own, declared, typed, (mem_keys_ofTypes types descends).mpr among, derives⟩

/-- Each call is of the handler that is known by the declared type. -/
theorem Policy.handler_eq_declared {call : Invocation NodeType}
    (member : call ∈ (ofTypes types descends).invocations positions) :
    call.handler = call.declared := by
  have held := get?_of_handler? _ (mem_of_mem_invocations _ member).2
  rw [get?_ofTypes] at held
  split at held
  · exact (Option.some.inj held).symm
  · cases held

end OfTypes

namespace Stroll

/-- Calls of handlers, each by the type that the handler is declared for and the names on the way to
its node. -/
abbrev Log := List (NodeType × List SlotName)

/-- Each handler logs its calls. -/
def logged (view : σ → Log) : Journal NodeType σ Log where
  view := view
  opening _ log := log
  note declared position log := log ++ [(declared, position.path)]

theorem replay_logged (view : σ → Log) (calls : List (Invocation NodeType)) (log : Log) :
    (logged view).replay calls log =
      log ++ calls.map fun call => (call.handler, call.position.path) := by
  induction calls generalizing log with
  | nil => exact (List.append_nil log).symm
  | cons call rest ih =>
    rw [Journal.replay, List.foldl_cons, ← Journal.replay, ih, List.map_cons]
    exact List.append_assoc log [_] _

/-- The log of a visit is the walk in document order. Whatever types have handlers, handlers that
leave the tree as it is are called at the positions of the tree that have one, in document order and
each once, up to the first object whose type names none; if there is such an object, the visit fails
there. In particular, counting finds how many positions hold a value of each type. -/
theorem visit_logs_document_order :
    (∀ (σ : Type) (types : List NodeType) (descends : NodeType → Tree → Bool)
        (behaviour : Behaviour NodeType σ) (view : σ → Log),
      behaviour.Observes (.ofTypes types descends) (logged view) →
      ∀ (session : Session NodeType σ) (v : VisitorId) (target : VisitTarget)
        (front : List SlotName) (arguments : List Value) (turns : Nat),
      (session.visitor v).visiting = false → Sound session.world →
      (session.visitor v).handlers = (Policy.ofTypes types descends).handlers →
      session.world.Starts target front →
      session.world.store.Unshared (target.value session.world) →
      session.world.store.Whole (target.value session.world) →
      session.world.visitTurns ≤ turns →
      ∃ tree listing after,
        tree = session.world.store.tree (target.value session.world) ∧
        listing = (Policy.ofTypes types descends).positions front tree ∧
        (listing.map Position.path).Nodup ∧
        (∀ position ∈ listing,
          (∃ rest, position.path = front ++ rest ∧ tree.at? rest = some position.tree) ∧
          (((Policy.ofTypes types descends).invocation? position).isSome = true ↔
            ∃ own declared, position.tree.type? = some own ∧ declared ∈ types ∧
              own.isSubtypeOf declared = true)) ∧
        view after.state = view session.state ++
          ((Policy.ofTypes types descends).invocations listing).map
            (fun call => (call.declared, call.position.path)) ∧
        if listing.all Position.isKnown then
          ∃ answer, (Visitor.calls behaviour turns).start v target arguments session =
            .ok answer after
        else
          ∃ shown, (Visitor.calls behaviour turns).start v target arguments session =
            .error (.error (.unrecognizedType shown)) after) ∧
    ∀ document : Document, document.isProper = true →
      ∃ value store listing, (Store.load document).run .empty = (value, store) ∧
        listing = Stats.policy.positions [] (store.tree value) ∧
        if listing.all Position.isKnown then
          ∃ counts, Stats.ofDocument document = .ok counts ∧ (counts.map Prod.fst).Nodup ∧
            ∀ name number, (name, number) ∈ counts ↔
              0 < number ∧ number = Stats.tally listing name
        else
          ∃ shown, Stats.ofDocument document = .error (.error (.unrecognizedType shown)) := by
  constructor
  · intro σ types descends behaviour view observes session v target front arguments turns rested
      sound handlers starts unshared whole enough
    obtain ⟨after, log, _, outcome⟩ :=
      start_spec rested sound handlers starts unshared whole enough arguments observes rfl
    refine ⟨_, _, after, rfl, rfl, Policy.nodup_positions _ (Store.keyed_tree unshared) front,
      fun position member => ⟨Policy.at?_of_mem_positions _ member,
        Policy.isSome_invocation?_ofTypes types descends position⟩, ?_, outcome⟩
    have named := log.trans (replay_logged view _ _)
    rw [List.map_congr_left fun call member => by
      rw [Policy.handler_eq_declared types descends member]] at named
    exact named
  · intro document proper
    exact ⟨_, _, _, rfl, rfl, Stats.ofDocument_spec proper rfl rfl⟩

/-- Handlers that log their calls, and have the children of a node walked if a test says so. -/
def logging (descends : NodeType → Tree → Bool) : Behaviour NodeType Log where
  handle calls v declared c := do
    let session ← Handling.session
    let place := (declared, session.world.names c)
    Handling.onSession (modify fun session => { session with state := session.state ++ [place] })
    if descends declared (session.world.store.tree (session.world.value c)) then
      let _ ← Handling.traverse calls v c
      return .traversed
    else return .skipChildren
  reset _ _ _ := pure ()

theorem observes_logging (types : List NodeType) (descends : NodeType → Tree → Bool) :
    (logging descends).Observes (.ofTypes types descends) (logged id) where
  reset _ _ _ session := ⟨session, .withState session session.state, rfl, rfl⟩
  skips calls v declared c context session _ skipped := by
    refine ⟨context, _, .withState session _, rfl, ?_⟩
    simp only [Policy.ofTypes] at skipped
    simp only [logging, EStateM.bind, bind, Handling.session, Handling.onSession, get, getThe,
      MonadStateOf.get, get_apply, skipped]
    rfl
  walks calls v declared c context session _ walked := by
    refine Handling.walks_of_eq (.withState session _) rfl context ?_
    simp only [Policy.ofTypes] at walked
    simp only [logging, EStateM.bind, bind, Handling.session, Handling.onSession, get, getThe,
      MonadStateOf.get, get_apply, walked]
    rfl

/-- `function f() {}` and then `a` with a comment -/
def commented : Document :=
  .nodeOf .program [("body", .array [
    .nodeOf .functionDeclaration [("id", .nameOf "f"), ("params", .array []),
      ("body", .nodeOf .blockStatement [("body", .array [])])],
    .object [("comments", .array [.nodeOf .line [("value", .text "c")]]),
      ("type", .text "ExpressionStatement"),
      ("expression", .nameOf "a")]])]

/-- Statements, identifiers and comments are logged, but nothing in a function. Counting goes into
the function, too. -/
theorem commented_log : commented.isProper = true ∧
    (∃ value store answer after, (Store.load commented).run .empty = (value, store) ∧
      (Visitor.calls (logging fun _ tree => !tree.isOf .function) 40).start 0 (.cursor 0) []
        (.begun [(.statement, .statement), (.identifier, .identifier), (.comment, .comment)] []
          value store) = .ok answer after ∧
      after.state = [(.statement, [.key "body", .index 0]), (.statement, [.key "body", .index 1]),
        (.identifier, [.key "body", .index 1, .key "expression"]),
        (.comment, [.key "body", .index 1, .key "comments", .index 0])]) ∧
    ∃ counts, Stats.ofDocument commented = .ok counts ∧ ("Identifier", 2) ∈ counts := by
  have proper : commented.isProper = true := rfl
  have intact := (Store.loaded commented proper Store.empty).brings.intact _ List.mem_cons_self
  obtain ⟨_, _, after, rfl, rfl, _, _, log, outcome⟩ := visit_logs_document_order.1 _
    [.statement, .identifier, .comment] (fun _ tree => !tree.isOf .function) _ id
    (observes_logging _ _) (.begun _ [] _ _) 0 (.cursor 0) [] [] 40 rfl
    (Session.sound_begun _ _ _ _) rfl (Session.starts_begun _ _ _ _) intact.unshared intact.whole
    (by decide +kernel)
  rw [if_pos (by decide +kernel)] at outcome
  obtain ⟨answer, ended⟩ := outcome
  refine ⟨proper, ⟨_, _, answer, after, rfl, ended, log.trans (by decide +kernel)⟩, ?_⟩
  obtain ⟨value, store, _, loaded, rfl, counted⟩ := visit_logs_document_order.2 commented proper
  obtain rfl : _ = value := congrArg Prod.fst loaded
  obtain rfl : _ = store := congrArg Prod.snd loaded
  rw [if_pos (by decide +kernel)] at counted
  obtain ⟨counts, ended, _, counted⟩ := counted
  exact ⟨counts, ended, (counted "Identifier" 2).mpr (by decide +kernel)⟩

end Stroll

end CodeTree
