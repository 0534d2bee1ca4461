/-
Lexical scopes. A program, a function and a catch clause each establish a scope, and
the node that establishes a scope is inside it. A cursor remembers its innermost scope
until its slot is replaced.
-/

import CodeTree.Node.Views
import CodeTree.Text.Shown

namespace CodeTree

namespace ScopeKind

/-- The word for a kind of scope. -/
def text : ScopeKind → String
  | program => "program"
  | function => "function"
  | catchClause => "catch"

end ScopeKind

namespace Store

/-- The kind of scope that a value establishes, if any. -/
def scopeKind? (store : Store) (value : Value) : Option ScopeKind :=
  if store.isOf .program value then some .program
  else if store.isOf .function value then some .function
  else if store.isOf .catchClause value then some .catchClause
  else none

end Store

namespace World

def scope (world : World) (s : ScopeId) : Scope := world.scopes[s]?.getD default

/-- Adds the scope of a kind that the value at a cursor establishes. -/
def addScope (world : World) (c : CursorId) (kind : ScopeKind) (parent? : Option ScopeId) :
    ScopeId × World :=
  let depth := match parent? with
    | some parent => (world.scope parent).depth + 1
    | none => 0
  let scope : Scope := { kind, cursor := c, node := world.value c, parent?, depth }
  (world.scopes.size, { world with scopes := world.scopes.push scope })

/-- The innermost scope along a chain of cursors. Every cursor passed on the way remembers its
own. -/
def scopeAlong (world : World) : List CursorId → Option ScopeId × World
  | [] => (none, world)
  | c :: above =>
    match (world.cursor c).views.scope? with
    | some remembered => (remembered, world)
    | none =>
      let (enclosing, world) := world.scopeAlong above
      let value := world.value c
      let (answer, world) :=
        match world.store.scopeKind? value with
        | some kind =>
          if world.store.isNode value then
            let (established, world) := world.addScope c kind enclosing
            (some established, world)
          else (enclosing, world)
        | none => (enclosing, world)
      (answer, world.modifyViews c (fun views => { views with scope? := some answer }))

/-- The innermost scope at a cursor. -/
def scopeAt (world : World) (c : CursorId) : Option ScopeId × World :=
  world.scopeAlong (world.chain c)

/-- A scope and the scopes around it, from the inside out. A scope is younger than the one around
it. -/
def scopeChain (world : World) (s : ScopeId) : List ScopeId :=
  s :: match (world.scope s).parent? with
    | none => []
    | some parent => if parent < s then world.scopeChain parent else []
termination_by s

/-- The outermost scope around a scope. -/
def outermost (world : World) (s : ScopeId) : ScopeId := (world.scopeChain s).getLastD s

/-- Where a scope was established, while that cursor lives. -/
def scopeCursor? (world : World) (s : ScopeId) : Option CursorId :=
  let c := (world.scope s).cursor
  if world.isAlive c then some c else none

/-- The text that describes a scope. -/
def describeScope (world : World) (s : ScopeId) : String :=
  let scope := world.scope s
  let kind := match scope.kind with
    | .program => "Program"
    | .function => "Function"
    | .catchClause => "Catch"
  let type := match world.store.typeName? scope.node with
    | some name => s!"Some({Text.shown name})"
    | none => "None"
  s!"Scope \x7b kind: {kind}, node_type: {type}, depth: {scope.depth} \x7d"

end World

namespace Action

/-- Establishes a scope at a cursor within another. -/
def establishScope (c : CursorId) (parent? : Option ScopeId) : Action ScopeId := do
  let world ← get
  match world.store.scopeKind? (world.value c) with
  | some kind => ofState (·.addScope c kind parent?)
  | none => throw (.fault (.noScope (world.store.render (world.value c))))

end Action

end CodeTree
