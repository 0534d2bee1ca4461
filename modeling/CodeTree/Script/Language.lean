/-
Scripts: a small language that drives cursors and visitors step by step. Cursors are kept
in registers, which hold them, and values in variables. A visitor's handlers are programs
of instructions, some of which run steps in turn.
-/

import CodeTree.Cursor.SlotName
import CodeTree.Json.Document
import CodeTree.Value.Store

namespace CodeTree

namespace Script

/-- How a step names a value. -/
inductive Spec where
  /-- A fresh value that is loaded from a document. -/
  | literal (document : Document)
  | ofCursor (register : String)
  | named (name : String)
  /-- A fresh node, made from values and from lists of values. -/
  | node (make : List Value → List (List Value) → StateM Store Value) (parts : List Spec)
    (lists : List (List Spec))
  | member (object : Spec) (key : String)
  | item (array : Spec) (index : Nat)
  | copy (value : Spec)
  /-- A fresh array of the values themselves. -/
  | list (items : List Spec)
deriving Inhabited

/-- Which elements a step selects. -/
inductive Selection where
  | all
  | ofType (name : String)
  | equalTo (value : Spec)
deriving Inhabited

/-- A question to a composite, or a write to it without a cursor. Arrays go by the index and
objects by the key, where both are given. -/
inductive DirectCall where
  | text
  | type
  | member (key : String)
  | item (index : Nat)
  | size
  | get (index : Nat) (key : String)
  | set (index : Nat) (value : Spec)
  | position (value : Spec)
  | insert (index : Nat) (key : String) (value : Spec)
  | remove (index : Nat) (key : String)
  | has (key : String)
  | keys
  /-- Compares the composite with a fresh one of the same contents. -/
  | rewrap
deriving Inhabited

/-- What a handler can make its course depend on. -/
inductive Condition where
  | fieldIs (key : String) (literal : Document)
  | isOf (type : String)
  | nameIs (name? : Option SlotName)
  | logged (count : Nat)
  | changed
  | needsParens
  | not (condition : Condition)
deriving Inhabited

/-- What becomes of an error that a handler has caught. -/
inductive Catching where
  | drop
  | pass
  /-- Withdraws the request to stop, if the error is one, and passes it on. -/
  | cancel
deriving DecidableEq, Inhabited

mutual

/-- A step. `on` is the register of the cursor that the step works on. A cursor that results from
a step can be kept in a register. -/
inductive Step where
  | get (on : String) (names : List SlotName) (keep? : Option String)
  | parentPath (on : String) (keep? : Option String)
  | info (on : String)
  | describe (on : String)
  | sameCursor (on other : String)
  /-- Remembers a cursor without holding it. -/
  | remember (on weak : String)
  | recall (weak : String) (keep? : Option String)
  | drop (registers : List String)
  | dump
  | root (value : Spec) (keep? : Option String)
  | each (on : String) (steps : List Step)
  /-- Stops at the first step that fails. -/
  | tryEach (on : String) (steps : List Step)
  | elements (on : String) (selection : Selection)
  | shift (on : String) (name? : Option String)
  | pop (on : String) (name? : Option String)
  | unshift (on : String) (values : List Spec)
  | push (on : String) (values : List Spec)
  | insertAt (on : String) (index : Nat) (values : List Spec)
  | insertBefore (on : String) (values : List Spec)
  | insertAfter (on : String) (values : List Spec)
  | replace (on : String) (values : List Spec) (keep : List String)
  | replaceWith (on : String) (value : Spec) (keep? : Option String)
  | remove (on : String)
  | assign (name : String) (value : Spec)
  | compare (left right : Spec)
  | direct (target : Spec) (call : DirectCall)
  | node (on : String)
  | parent (on : String) (keep? : Option String)
  | scope (on : String)
  | establishScope (on : String) (parent? : Option String)
  | canBeFirst (on : String)
  | isFirst (on : String)
  | needsParens (on : String) (inExpression : Bool)
  | prune (on : String) (keep? : Option String)
  /-- Defines a visitor. Its handlers go by type names if every visit is to start with a fresh
  log, and by handler names otherwise. -/
  | define (visitor : String) (fresh : Bool) (handlers : List (String × List Instruction))
  | visitCursor (visitor : String) (on : String) (arguments : List Spec) (clear : Bool)
  | visitValue (visitor : String) (value : Spec) (arguments : List Spec) (clear : Bool)
  | flags (visitor : String)
  | abort (visitor : String) (cancel : Bool)

/-- An instruction of a handler. Where no visitor is named, the handler's own is meant. -/
inductive Instruction where
  | log
  | note
  | traverse (visitor? : Option String) (names : List SlotName)
  | visit (visitor? : Option String) (names : List SlotName)
  | traversed
  | skip
  | replace (value : Spec)
  | fail (message : String)
  | abort (visitor? : Option String)
  | report
  /-- Runs a step and logs how it ended. -/
  | step (step : Step)
  /-- Runs a step and fails if it does. -/
  | must (step : Step)
  | ifElse (condition : Condition) (yes no : List Instruction)
  | attempt (catching : Catching) (instructions : List Instruction)

end

/-- A handler: its name as declared, and its instructions. -/
structure Program where
  declared : String
  instructions : List Instruction

end Script

end CodeTree
