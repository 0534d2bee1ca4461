/-
Cursors and the world they live in. A cursor stands at a slot of the tree: it knows the
value in the slot, the slot's name, and the cursor of the container. It keeps the
cursors of its own slots once they have been asked for, so that asking twice gives
one cursor.

A cursor lives as long as it can be reached, through those kept cursors, from one that
is held, or from the root that a held cursor was reached from. A cursor knows its
parent only while the parent lives. The parent of a cursor is older than the cursor,
which is why climbing ends.
-/

import CodeTree.Cursor.SlotName
import CodeTree.Value.Typed

namespace CodeTree

/-- The identity of a cursor. Later cursors have greater identities. -/
abbrev CursorId := Nat

/-- The identity of a scope. -/
abbrev ScopeId := Nat

/-- What a cursor remembers of its surroundings. Each view is absent until it has been asked for. -/
structure Views where
  /-- The enclosing node. -/
  node? : Option (Option Value)
  /-- The cursor of the parent node. -/
  parent? : Option (Option CursorId)
  /-- The innermost scope. -/
  scope? : Option (Option ScopeId)
deriving DecidableEq, Inhabited

def Views.empty : Views := ⟨none, none, none⟩

/-- A cursor. -/
structure Cursor where
  value : Value
  parent? : Option CursorId
  /-- The name of the slot; a root has none. -/
  name? : Option SlotName
  /-- The root from which the cursor was reached. -/
  root : CursorId
  children : Assoc SlotName CursorId
  views : Views
deriving Inhabited

/-- What kind of node established a scope. -/
inductive ScopeKind where
  | program
  | function
  | catchClause
deriving DecidableEq, Inhabited

/-- A lexical scope: the node that established it, where that node stood, and the scope around it.
-/
structure Scope where
  kind : ScopeKind
  cursor : CursorId
  node : Value
  parent? : Option ScopeId
  /-- The number of scopes around it. -/
  depth : Nat
deriving Inhabited

/-- The composites, the cursors over them, the scopes, and the cursors that are held. -/
structure World where
  store : Store
  cursors : Array Cursor
  scopes : Array Scope
  held : List CursorId
deriving Inhabited

namespace World

def empty : World := ⟨.empty, #[], #[], []⟩

/-! ### Single cursors -/

def cursor (world : World) (c : CursorId) : Cursor := world.cursors[c]?.getD default

/-- The value in a cursor's slot, as the cursor remembers it. -/
def value (world : World) (c : CursorId) : Value := (world.cursor c).value

/-- The name of a cursor's slot. -/
def name? (world : World) (c : CursorId) : Option SlotName := (world.cursor c).name?

def modifyCursor (world : World) (c : CursorId) (change : Cursor → Cursor) : World :=
  { world with cursors := world.cursors.modify c change }

/-- The name of a cursor's slot as messages show it. -/
def shownName (world : World) (c : CursorId) : String :=
  match world.name? c with
  | some name => name.text
  | none => "<root>"

/-! ### Holding -/

/-- Takes hold of a cursor, which keeps it and its root alive. -/
def hold (world : World) (c : CursorId) : World := { world with held := c :: world.held }

/-- Lets go of a cursor, once. -/
def release (world : World) (c : CursorId) : World := { world with held := world.held.erase c }

def holdAll (world : World) (cs : List CursorId) : World := cs.foldl hold world

def releaseAll (world : World) (cs : List CursorId) : World := cs.foldl release world

/-! ### Life -/

/-- Whether a cursor is held, or is the root of a held one. -/
def isHeld (world : World) (c : CursorId) : Bool :=
  world.held.any (fun h => h == c || (world.cursor h).root == c)

/-- Whether a cursor keeps another among its children. -/
def keeps (world : World) (parent child : CursorId) : Bool :=
  (world.cursor parent).children.entries.any (fun entry => entry.2 == child)

/-- Whether a cursor lives: it is held, or a living parent keeps it. -/
def isAlive (world : World) (c : CursorId) : Bool :=
  world.isHeld c ||
    match (world.cursor c).parent? with
    | none => false
    | some parent => if parent < c then world.keeps parent c && world.isAlive parent else false
termination_by c

/-- The cursor of the container, while it lives. -/
def parent? (world : World) (c : CursorId) : Option CursorId :=
  match (world.cursor c).parent? with
  | none => none
  | some parent => if world.isAlive parent then some parent else none

/-- A cursor and the living cursors above it, from the inside out. -/
def chain (world : World) (c : CursorId) : List CursorId :=
  c :: match world.parent? c with
    | none => []
    | some parent => if parent < c then world.chain parent else []
termination_by c

/-- The names from the outermost living cursor down to a cursor. -/
def names (world : World) (c : CursorId) : List SlotName :=
  (world.chain c).reverse.filterMap world.name?

/-! ### New cursors -/

/-- Adds a root cursor over a value. -/
def addRoot (world : World) (value : Value) : CursorId × World :=
  let c := world.cursors.size
  let root : Cursor :=
    { value, parent? := none, name? := none, root := c, children := .empty, views := .empty }
  (c, { world with cursors := world.cursors.push root })

/-- Adds a cursor for a slot and keeps it as the child of that name. -/
def addChild (world : World) (parent : CursorId) (name : SlotName) (value : Value) :
    CursorId × World :=
  let c := world.cursors.size
  let child : Cursor :=
    { value, parent? := some parent, name? := some name, root := (world.cursor parent).root
      children := .empty, views := .empty }
  let world := world.modifyCursor parent (fun cursor =>
    { cursor with children := cursor.children.insert name c })
  (c, { world with cursors := world.cursors.push child })

/-! ### Navigation -/

/-- The cursor of a slot: the kept one if it still stands for what the slot holds, else a new one.
-/
def child (world : World) (c : CursorId) (name : SlotName) : CursorId × World :=
  let value := world.value c
  let name := world.store.normalName value name
  let actual := world.store.slot value name
  match (world.cursor c).children.get? name with
  | none => world.addChild c name actual
  | some kept =>
    if (world.value kept).same actual then (kept, world) else world.addChild c name actual

/-- Steps through names, one slot after another. -/
def descend (world : World) (c : CursorId) : List SlotName → CursorId × World
  | [] => (c, world)
  | name :: rest =>
    let (next, world) := world.child c name
    world.descend next rest

/-- The cursors of the given slots, found one after another. -/
def childrenAt (world : World) (c : CursorId) : List SlotName → List CursorId × World
  | [] => ([], world)
  | name :: rest =>
    let (first, world) := world.child c name
    let (others, world) := world.childrenAt c rest
    (first :: others, world)

/-- The cursors of all elements of an array, in order; a value that is no array has none. -/
def elements (world : World) (c : CursorId) : List CursorId × World :=
  let count := ((world.store.items? (world.value c)).getD []).length
  world.childrenAt c ((List.range count).map .index)

end World

end CodeTree
