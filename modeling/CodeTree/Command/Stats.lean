/-
Counting: how many nodes and comments of each type a tree has.
-/

import CodeTree.Visitor.Walk

namespace CodeTree

/-- A world that holds nothing but a document, and the value of the document. -/
def World.ofDocument (document : Document) : Value × World :=
  let (value, store) := (Store.load document).run .empty
  (value, { World.empty with store })

/-- Enough turns for a visit whose handlers only walk on: each level of the tree takes two, and a
tree is no deeper than the number of its composites, with defaults and primitives below. -/
def World.visitTurns (world : World) : Nat := 2 * (world.store.composites.size + 3)

/-- A session of one visitor with one handler, over a document, with the value of the document. -/
def Session.ofDocument {H σ : Type} (type : NodeType) (handler : H) (state : σ)
    (document : Document) : Value × Session H σ :=
  let (value, world) := World.ofDocument document
  (value, { world, visitors := #[.ofHandlers [(type, handler)]], state })

namespace Stats

/-- Counts by type name. -/
abbrev Counts := Assoc String Nat

def bump (counts : Counts) (name : String) : Counts :=
  counts.insert name ((counts.get? name).getD 0 + 1)

/-- Counts each typed value and walks on. -/
def behaviour : Behaviour Unit Counts where
  handle calls v _ c := do
    let session ← Handling.session
    match session.world.store.typeName? (session.world.value c) with
    | some name =>
      Handling.onSession (modify (fun session => { session with state := bump session.state name }))
    | none => pure ()
    let _ ← Handling.traverse calls v c
    return .traversed
  reset _ _ _ := pure ()

/-- Visits a tree from a root cursor and gives the counts in the order of the names. -/
def visit (tree : Value) : VisitAction Unit Counts (List (String × Nat)) := do
  let root ← HasWorld.updateWorld (·.addRoot tree)
  let turns := (← get).world.visitTurns
  let _ ← (Visitor.calls behaviour turns).start 0 (.cursor root) []
  return (← get).state.entries.mergeSort (fun left right => left.1 ≤ right.1)

/-- The counts of a document. -/
def ofDocument (document : Document) : Except (Halt VisitError) (List (String × Nat)) :=
  let (tree, session) := Session.ofDocument .printable () Assoc.empty document
  match visit tree session with
  | .ok counts _ => .ok counts
  | .error halt _ => .error halt

/-- The sum of all counts. -/
def total (counts : List (String × Nat)) : Nat := counts.foldl (fun sum count => sum + count.2) 0

end Stats

end CodeTree
