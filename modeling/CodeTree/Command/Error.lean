/-
Errors of commands, and the responses that carry them. Each error has a code, which is
also the exit status, and some have details.
-/

import CodeTree.Json.Document
import CodeTree.Visitor.Basic

namespace CodeTree

/-- Why a command failed. -/
inductive CommandError where
  | invalidArguments (message : String) (details? : Option Document)
  | fileNotFound (path : String)
  | invalidJson (path message : String) (line column : Nat)
  | visit (cause : VisitError)
  | internal (message : String)

namespace CommandError

def message : CommandError → String
  | invalidArguments message _ => s!"invalid arguments: {message}"
  | fileNotFound path => s!"file not found: {path}"
  | invalidJson path message _ _ => s!"invalid JSON in {path}: {message}"
  | visit cause => s!"traversal failed: {cause.message}"
  | internal message => s!"internal error: {message}"

/-- The exit status: 2 for bad arguments, 3 for bad input, 10 for what should not happen. -/
def code : CommandError → Nat
  | invalidArguments _ _ => 2
  | fileNotFound _ | invalidJson _ _ _ _ | visit (.unrecognizedType _) => 3
  | visit _ | internal _ => 10

def details? : CommandError → Option Document
  | invalidArguments _ details? => details?
  | invalidJson _ _ line column =>
    some (.object [("line", .number (.whole line)), ("column", .number (.whole column))])
  | visit (.unrecognizedType shown) => some (.object [("type", .text shown)])
  | _ => none

end CommandError

namespace Response

/-- The version of the form of the responses. -/
def schemaVersion : String := "1"

/-- A response of a status. -/
def ofStatus (status : String) (members : List (String × Document)) : Document :=
  .object (("status", .text status) :: ("schema_version", .text schemaVersion) :: members)

/-- The response to a command that failed. -/
def failure (error : CommandError) : Document :=
  let details := match error.details? with
    | some details => [("details", details)]
    | none => []
  ofStatus "error"
    [("error", .object ([("code", .number (.whole error.code)), ("message", .text error.message)] ++
      details))]

/-- The written form of a response, which is one line if `compact`. -/
def emit (compact : Bool) (response : Document) : String :=
  (if compact then response.compact else response.indented 0) ++ "\n"

end Response

end CodeTree
