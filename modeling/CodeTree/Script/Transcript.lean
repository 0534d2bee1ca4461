/-
What a script leaves behind: how each step ended, and what it showed. Cursors and scopes
are shown under numbers that they are given when they are first shown.
-/

import CodeTree.Node.Scope
import CodeTree.Visitor.Basic

namespace CodeTree

namespace Script

/-- Why a step failed. -/
inductive StepError where
  | visit (cause : VisitError)
  | unknownType (cause : UnknownType)
  /-- The script names what it has not defined. -/
  | undefined (name : String)
deriving DecidableEq

def StepError.message : StepError → String
  | visit cause => cause.message
  | unknownType cause => cause.message
  | undefined name => s!"undefined: {name}"

/-- The error as one of a visit. -/
def StepError.toVisitError : StepError → VisitError
  | visit cause => cause
  | unknownType cause => .unrecognizedType cause.shown
  | undefined name => .handler s!"undefined: {name}"

/-- A cursor as it is shown. -/
structure CursorView where
  number : Nat
  names : List SlotName
  value : Document

/-- A scope as it is shown. -/
structure ScopeView where
  number : Nat
  kind : ScopeKind
  depth : Nat
  isGlobal : Bool
  node : Document
  path? : Option (List SlotName)
  description : String
  /-- Whether it lies in the same outermost scope as the first one shown. -/
  sharesOutermost : Bool

/-- The flags of a visitor. -/
structure Flags where
  changed : Bool
  visiting : Bool
  pooled : Nat

/-- How a visit ended. -/
inductive VisitOutcome where
  /-- The text of the resulting value, and whether it is the one the visit started with. -/
  | done (text : String) (same : Bool)
  /-- For a visit that was stopped: whether the request had been withdrawn. -/
  | failed (cause : VisitError) (cancelled? : Option Bool)

mutual

/-- What a step showed. -/
inductive Reply where
  | nothing
  | flag (truth : Bool)
  | count (n : Nat)
  | position (index? : Option Nat)
  | text (characters : String)
  | texts (list : List String)
  | value (document : Document)
  | optionalValue (document? : Option Document)
  | size (n : Nat)
  | typed (name? : Option String) (type? : Option NodeType)
  | cursor (view : CursorView)
  | cursors (views : List CursorView)
  | registers (entries : List (String × CursorView))
  | details (view : CursorView) (name? : Option SlotName)
  | comparison (same equal : Bool)
  | rewrapped (same equal : Bool) (description : String)
  | scopes (views : List ScopeView)
  | visitor (description : String) (visitsComments : Bool) (resolved : List (NodeType × NodeType))
  | visited (flags : Flags) (outcome : VisitOutcome) (log? : Option (List LogEntry))
  | flags (flags : Flags) (log : List LogEntry)
  | raised (cause : VisitError) (cancelled : Bool) (description : String)
  | nested (entries : List (List Entry))
  | attempted (seen : List Reply) (failure? : Option StepError)

/-- How a step ended. -/
inductive Entry where
  | ok (reply : Reply)
  | failed (cause : StepError)

/-- What a visitor logs. -/
inductive LogEntry where
  | handled (declared : String) (type? : Option String) (names : List SlotName)
  | noted (flags : Flags) (atCurrent : Bool)
  | stepped (entry : Entry)
  | caught (cause : VisitError)
  | started (root : CursorView) (holder? : Option Document) (arguments : List Document)

end

/-- A step of the script itself: how it ended, and the text of the tree if it has changed. -/
inductive Line where
  | entry (entry : Entry) (tree? : Option String)
  /-- The script ended in a fault. -/
  | fault (cause : Fault)
  /-- The script needs more turns than it was given. -/
  | outOfTurns

end Script

end CodeTree
