/-
The scopes around a cursor. Scopes are entered when somebody first asks for them, each inside the
scope that the cursor above remembers by then. Whatever was asked and edited before, the scopes
around a cursor that can be reached are those of the programs, functions and catch clauses on its
chain, one for each and in their order.
-/

import CodeTree.Proofs.Freshness

namespace CodeTree

namespace World

/-! ### Scopes that are nested -/

/-- A scope is younger than the one around it, so that nothing cuts the way out short. -/
theorem Establishes.scopeChain_eq {world : World} {c : CursorId} {outer : Nat} {s : ScopeId}
    (establishes : Establishes world c outer s) :
    world.scopeChain s = s :: (world.scope s).parent?.elim [] world.scopeChain := by
  rw [scopeChain]
  cases outside : (world.scope s).parent? with
  | none => rfl
  | some parent =>
    dsimp only [Option.elim]
    rw [if_pos (establishes.older outside)]

section Nested

variable {world : World} {answer : Option ScopeId} {cs : List CursorId}
  (nested : Nested world cs answer)

include nested

/-- The scopes around a scope, as they are nested. -/
theorem Nested.scopes :
    (answer.elim [] world.scopeChain).length = cs.length ∧
    ∀ {i t}, (answer.elim [] world.scopeChain)[i]? = some t →
      ∃ d outer, cs[i]? = some d ∧ Establishes world d outer t ∧ outer + i + 1 = cs.length ∧
        (world.scope t).parent? = (answer.elim [] world.scopeChain)[i + 1]? ∧
        world.scopeChain t = (answer.elim [] world.scopeChain).drop i := by
  induction nested with
  | outside => exact ⟨rfl, nofun⟩
  | @within c outer s establishes _ ih =>
    obtain ⟨length, inner⟩ := ih
    have chain := establishes.scopeChain_eq
    dsimp only [Option.elim]
    rw [chain]
    refine ⟨congrArg (· + 1) length, ?_⟩
    intro i t there
    cases i with
    | zero =>
      cases there
      refine ⟨c, outer.length, rfl, establishes, rfl, ?_, chain⟩
      rw [List.getElem?_cons_succ]
      cases (world.scope s).parent? with
      | none => rfl
      | some parent =>
        rw [Option.elim, scopeChain]
        rfl
    | succ i =>
      obtain ⟨d, further, place, establishes, depth, parent, rest⟩ := inner there
      refine ⟨d, further, place, establishes, ?_, parent, rest⟩
      rw [List.length_cons, ← depth]
      omega

end Nested

end World

end CodeTree
