/-
The commands. Each reads a document from a file and answers with a response.
-/

import CodeTree.Command.Error
import CodeTree.Command.ParensReport
import CodeTree.Command.PruneAll
import CodeTree.Json.Reader

namespace CodeTree

/-- What reading a file gives. -/
inductive FileContent where
  | missing
  /-- The file is there and cannot be read. -/
  | unreadable (reason : String)
  | bytes (content : ByteArray)

/-- A command and the file it works on. -/
inductive Command where
  | stats (file : String)
  | parens (file : String) (inExpression : Bool)
  | prune (file : String) (typeName : String)
deriving DecidableEq

namespace Command

def file : Command → String
  | stats file => file
  | parens file _ => file
  | prune file _ => file

/-- The document in a file. -/
def readDocument (file : String) : FileContent → Except CommandError Document
  | .missing => .error (.fileNotFound file)
  | .unreadable reason => .error (.internal s!"failed to read {file}: {reason}")
  | .bytes content =>
    match String.fromUTF8? content with
    | none => .error (.internal s!"failed to read {file}: stream did not contain valid UTF-8")
    | some text =>
      match Document.read text with
      | .ok document => .ok document
      | .error error => .error (.invalidJson file error.message error.line error.column)

/-- The node type of a name given as an argument. -/
def readType (name : String) : Except CommandError NodeType :=
  match NodeType.ofName? name with
  | some type => .ok type
  | none =>
    .error (.invalidArguments s!"unknown node type: {name}" (some (.object [("type", .text name)])))

/-- The response of a command that succeeded, which names the file. -/
def success (file : String) (members : List (String × Document)) : Document :=
  Response.ofStatus "ok" (("file", .text file) :: members)

/-- A number as it stands in a response. -/
def count (n : Nat) : Document := .number (.whole n)

def statsResponse (file : String) (counts : List (String × Nat)) : Document :=
  success file
    [("total_nodes", count (Stats.total counts)),
      ("by_type", .object (counts.map (fun entry => (entry.1, count entry.2))))]

def parensResponse (file : String) (entries : List ParensEntry) : Document :=
  success file
    [("count", count entries.length),
      ("paths", .array (entries.map (fun entry =>
        .object [("path", .text entry.path), ("node_type", .text entry.type)])))]

def pruneResponse (file : String) (type : NodeType) (pruned : Nat) (tree : Document) : Document :=
  success file [("node_type", .text type.name), ("pruned", count pruned), ("tree", tree)]

/-- Runs a command on the content of its file. -/
def run (command : Command) (content : FileContent) : Except (Halt CommandError) Document := do
  match command with
  | stats file =>
    let document ← (readDocument file content).mapError .error
    let counts ← (Stats.ofDocument document).mapError (·.mapError .visit)
    return statsResponse file counts
  | parens file inExpression =>
    let document ← (readDocument file content).mapError .error
    let entries ← (ParensReport.ofDocument inExpression document).mapError (·.mapError .visit)
    return parensResponse file entries
  | prune file typeName =>
    let type ← (readType typeName).mapError .error
    let document ← (readDocument file content).mapError .error
    let (pruned, tree) ← (PruneAll.ofDocument type document).mapError (·.mapError .visit)
    return pruneResponse file type pruned tree

end Command

end CodeTree
