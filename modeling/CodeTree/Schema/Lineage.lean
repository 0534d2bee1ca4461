/-
The lineage of a type: the type itself and all its supertypes, each before its own
supertypes. It is found for any table of direct bases by a list that grows while it is
scanned. Every type that is met has its bases appended, and an earlier entry of it is
blanked, since a type that is reached by several routes has to stand after all of them.
-/

import CodeTree.Data.Assoc
import CodeTree.Schema.NodeType

namespace CodeTree

namespace Lineage

variable {α : Type}

/-- A list that is being scanned. -/
structure Worklist (α : Type) where
  /-- The types to be scanned and those scanned already, of which earlier entries are blank. -/
  entries : List (Option α)
  /-- Where each type was last met. -/
  lastSeen : Assoc α Nat
  position : Nat

namespace Worklist

def ofStart (start : α) : Worklist α := ⟨[some start], .empty, 0⟩

/-- The entries that are not blank. -/
def remaining (worklist : Worklist α) : List α := worklist.entries.filterMap id

variable [DecidableEq α]

/-- The entries, blank where a type was last met. -/
def blanked (worklist : Worklist α) (type : α) : List (Option α) :=
  match worklist.lastSeen.get? type with
  | some previous => worklist.entries.set previous none
  | none => worklist.entries

/-- Scans the next entry, unless the list is at its end. -/
def step (bases : α → List α) (worklist : Worklist α) : Option (Worklist α) :=
  match worklist.entries[worklist.position]? with
  | none => none
  | some none => some { worklist with position := worklist.position + 1 }
  | some (some type) =>
    some
      { entries := worklist.blanked type ++ (bases type).map some
        lastSeen := worklist.lastSeen.insert type worklist.position
        position := worklist.position + 1 }

/-- Scans to the end of the list and gives what remains. A table with a cycle has no end to the
list; there is no answer if the end is not reached after `limit` entries. -/
def scan (bases : α → List α) (limit : Nat) (worklist : Worklist α) : Option (List α) :=
  match worklist.step bases, limit with
  | none, _ => some worklist.remaining
  | some _, 0 => none
  | some next, limit + 1 => scan bases limit next

end Worklist

/-- The lineage of a type under a table of bases, if it is found by scanning `limit` entries. -/
def linearize [DecidableEq α] (bases : α → List α) (limit : Nat) (start : α) : Option (List α) :=
  (Worklist.ofStart start).scan bases limit

end Lineage

namespace NodeType

/-- No list grows longer than the vocabulary. -/
theorem linearize_isSome (type : NodeType) : (Lineage.linearize bases all.length type).isSome := by
  cases type <;> rfl

/-- The type and its supertypes, each before its own supertypes. -/
def supertypes (type : NodeType) : List NodeType :=
  (Lineage.linearize bases all.length type).get type.linearize_isSome

/-- Whether a type is another or derives from it. -/
def isSubtypeOf (type other : NodeType) : Bool := type.supertypes.contains other

/-- The nearest of the candidates along the lineage of a type. -/
def nearest? (candidates : List NodeType) (type : NodeType) : Option NodeType :=
  type.supertypes.find? (fun supertype => candidates.contains supertype)

end NodeType

end CodeTree
