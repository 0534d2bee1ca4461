/-
The identity relation of values. Away from NaN it is an equivalence: a composite is the same
as itself alone, and primitives are the same when they are equal, the two zeros counting as
equal. NaN is the same as nothing, which is why every result about caches asks for its absence.
-/

import CodeTree.Value.Store

namespace CodeTree

namespace Double

theorem equals_self (number : Double) (proper : number.isNaN = false) :
    number.equals number = true := by
  simp [equals, proper]

theorem equals_comm (left right : Double) : left.equals right = right.equals left := by
  unfold equals
  rw [Bool.beq_comm, Bool.and_comm left.isZero, Bool.and_comm (!left.isNaN)]

theorem not_isNaN_of_equals {left right : Double} (equal : left.equals right = true) :
    left.isNaN = false ∧ right.isNaN = false := by
  simp only [equals, Bool.and_eq_true, Bool.not_eq_true'] at equal
  exact equal.1

theorem equals_trans {first second third : Double} (left : first.equals second = true)
    (right : second.equals third = true) : first.equals third = true := by
  simp only [equals, Bool.and_eq_true, Bool.or_eq_true, beq_iff_eq, Bool.not_eq_true'] at *
  refine ⟨⟨left.1.1, right.1.2⟩, ?_⟩
  rcases left.2 with rfl | ⟨firstZero, secondZero⟩
  · exact right.2
  · rcases right.2 with rfl | ⟨_, thirdZero⟩
    · exact Or.inr ⟨firstZero, secondZero⟩
    · exact Or.inr ⟨firstZero, thirdZero⟩

theorem not_isNaN_zero (negative : Bool) : (zero negative).isNaN = false := by
  simp [zero, isNaN]

theorem not_isNaN_infinity (negative : Bool) : (infinity negative).isNaN = false := by
  simp [infinity, isNaN]

theorem not_isNaN_assemble (negative : Bool) (m : Nat) (q : Int) :
    (assemble negative m q).isNaN = false := by
  have below (field : Nat) (small : field < 2047) (rest : Fin (Nat.pow 2 52)) :
      isNaN ⟨negative, ⟨field, Nat.lt_succ_of_lt small⟩, rest⟩ = false := by
    have other : (⟨field, Nat.lt_succ_of_lt small⟩ : Fin 2048) ≠ 2047 := fun equal =>
      Nat.ne_of_lt small (congrArg Fin.val equal)
    simp [isNaN, other]
  unfold assemble
  split
  · simp [isNaN]
  · dsimp only
    by_cases small : (if m < Nat.pow 2 53 then (q + 1075).toNat else (q + 1076).toNat) < 2047
    · rw [dif_pos small]
      exact below _ small _
    · rw [dif_neg small]
      exact not_isNaN_infinity negative

/-- Rounding a quotient gives a number. The length that an array shows is such a quotient. -/
theorem not_isNaN_ofInt (n : Int) : (ofInt n).isNaN = false := by
  unfold ofInt ofRatio
  split
  · exact not_isNaN_zero _
  · exact not_isNaN_assemble _ _ _

end Double

namespace Value

/-- Whether a value is the number code that equals nothing. -/
def isNaN : Value → Bool
  | .number code => code.isNaN
  | _ => false

theorem same_self {value : Value} (proper : value.isNaN = false) : value.same value = true := by
  cases value with
  | number code => exact code.equals_self proper
  | null => rfl
  | bool truth => exact beq_self_eq_true truth
  | text characters => exact beq_self_eq_true characters
  | composite id => exact beq_self_eq_true id

theorem same_comm (left right : Value) : left.same right = right.same left := by
  cases left <;> cases right <;>
    first
    | rfl
    | exact Double.equals_comm _ _
    | exact Bool.beq_comm

theorem same_trans {first second third : Value} (left : first.same second = true)
    (right : second.same third = true) : first.same third = true := by
  cases first <;> cases second <;> cases third <;>
    first
    | exact Double.equals_trans left right
    | simp_all [same]

/-- What is the same as anything is a number if it is numeric at all. -/
theorem not_isNaN_of_same {left right : Value} (equal : left.same right = true) :
    left.isNaN = false ∧ right.isNaN = false := by
  cases left <;> cases right <;>
    first
    | exact Bool.noConfusion equal
    | exact ⟨rfl, rfl⟩
    | exact Double.not_isNaN_of_equals equal

theorem same_composite_left {value : Value} {id : CompositeId} :
    (composite id).same value = true ↔ value = composite id := by
  cases value with
  | composite other =>
    rw [same, beq_iff_eq, composite.injEq]
    exact eq_comm
  | _ => simp [same]

theorem same_composite_right {value : Value} {id : CompositeId} :
    value.same (composite id) = true ↔ value = composite id := by
  rw [same_comm, same_composite_left]

end Value

end CodeTree
