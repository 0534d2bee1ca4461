/-
Descriptions of cursors and composites, for people who look into a running program.
-/

import CodeTree.Cursor.World
import CodeTree.Text.Shown

namespace CodeTree

def SlotName.describe : SlotName → String
  | index position => s!"Index({position})"
  | key characters => s!"Key({Text.shown characters})"

/-- A cursor by its name and the text of its value. -/
def World.describeCursor (world : World) (c : CursorId) : String :=
  let name := match world.name? c with
    | some name => s!"Some({name.describe})"
    | none => "None"
  s!"Path \x7b name: {name}, value: {world.store.render (world.value c)} \x7d"

/-- A composite by the texts of its elements or members, with spaces between them. -/
def Store.describe (store : Store) (value : Value) : String :=
  match store.contents? value with
  | some (.array items) => "[" ++ ", ".intercalate (items.map store.render) ++ "]"
  | some (.object members) =>
    "\x7b" ++ ", ".intercalate (members.entries.map (fun entry =>
      Text.shown entry.1 ++ ": " ++ store.render entry.2)) ++ "\x7d"
  | none => store.render value

end CodeTree
