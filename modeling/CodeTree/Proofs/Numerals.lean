/-
Whole numbers as doubles. Below `2 ^ 53` a whole number is a double: scaled by the power of two
that takes its leading bit to the place of the leading one, it leaves no remainder to round off.
So a double that stands for such a number is read back as itself, the negative zero apart, and
such a number is read back from its double.
-/

import CodeTree.Proofs.Identity
import CodeTree.Value.Whole
import Mathlib.Algebra.Order.Ring.Nat
import Mathlib.Data.Int.Order.Basic

namespace CodeTree

namespace Double

/-! ### The leading bit -/

/-- How far a whole number is moved up so that its leading bit comes to the place of the leading
one. -/
def lift (n : Nat) : Nat := 52 - Nat.log2 n

/-- Only one power of two moves a whole number into the range of significands. -/
theorem eq_lift {n shift : Nat} (low : 2 ^ 52 ≤ n * 2 ^ shift) (high : n * 2 ^ shift < 2 ^ 53) :
    shift = lift n := by
  have positive : n ≠ 0 := by
    rintro rfl
    simp at low
  have atLeast : 2 ^ 52 < 2 ^ (Nat.log2 n + 1 + shift) := by
    rw [pow_add]
    exact low.trans_lt (Nat.mul_lt_mul_of_pos_right Nat.lt_log2_self (Nat.two_pow_pos _))
  have atMost : 2 ^ (Nat.log2 n + shift) < 2 ^ 53 := by
    rw [pow_add]
    exact (Nat.mul_le_mul_right _ (Nat.log2_self_le positive)).trans_lt high
  have least := (Nat.pow_lt_pow_iff_right (by decide)).mp atLeast
  have most := (Nat.pow_lt_pow_iff_right (by decide)).mp atMost
  rw [lift]
  omega

section Positive

variable {n : Nat} (positive : n ≠ 0) (small : n < 2 ^ 53)

include positive small

theorem log2_add_lift : Nat.log2 n + lift n = 52 := by
  have below : Nat.log2 n < 53 := (Nat.log2_lt positive).mpr small
  rw [lift]
  omega

theorem lifted_bounds : 2 ^ 52 ≤ n * 2 ^ lift n ∧ n * 2 ^ lift n < 2 ^ 53 := by
  have split := log2_add_lift positive small
  constructor
  · calc 2 ^ 52 = 2 ^ Nat.log2 n * 2 ^ lift n := by rw [← pow_add, split]
      _ ≤ n * 2 ^ lift n := Nat.mul_le_mul_right _ (Nat.log2_self_le positive)
  · calc n * 2 ^ lift n < 2 ^ (Nat.log2 n + 1) * 2 ^ lift n :=
          Nat.mul_lt_mul_of_pos_right Nat.lt_log2_self (Nat.two_pow_pos _)
      _ = 2 ^ 53 := by rw [← pow_add, Nat.add_right_comm, split]

end Positive

/-! ### The fields of a whole number -/

/-- The fields of a double are those of a whole number other than zero. -/
structure Spells (number : Double) (n : Int) : Prop where
  negative : number.negative = decide (n < 0)
  exponent : number.exponent.val = 1075 - lift n.natAbs
  fraction : 2 ^ 52 + number.fraction.val = n.natAbs * 2 ^ lift n.natAbs

theorem Spells.unique {left right : Double} {n : Int} (one : left.Spells n)
    (other : right.Spells n) : left = right := by
  obtain ⟨negative, exponent, fraction⟩ := left
  obtain ⟨negative', exponent', fraction'⟩ := right
  have sign : negative = negative' := one.negative.trans other.negative.symm
  have field : exponent = exponent' := Fin.ext (one.exponent.trans other.exponent.symm)
  have rest : fraction = fraction' :=
    Fin.ext (Nat.add_left_cancel (one.fraction.trans other.fraction.symm))
  rw [sign, field, rest]

theorem binaryExponent_one {n : Nat} (positive : n ≠ 0) : binaryExponent n 1 = Nat.log2 n := by
  have guess : (Nat.log2 n : Int) - Nat.log2 1 = Nat.log2 n := by
    rw [show Nat.log2 1 = 0 from by decide]
    omega
  have below : ¬ n < 1 * Nat.pow 2 (Nat.log2 n) := by
    rw [Nat.one_mul]
    exact not_lt.mpr (Nat.log2_self_le positive)
  have scaled : scaleDown n 1 (Nat.log2 n : Int) = (n, 1 * Nat.pow 2 (Nat.log2 n)) :=
    if_neg (Int.not_lt.mpr (Int.natCast_nonneg _))
  unfold binaryExponent
  rw [guess]
  dsimp only
  rw [scaled]
  exact if_neg below

theorem scaleDown_lift (n : Nat) : scaleDown n 1 (-lift n) = (n * 2 ^ lift n, 1) := by
  rw [scaleDown, Int.natAbs_neg, Int.natAbs_natCast]
  split
  · rfl
  · have zero : lift n = 0 := by omega
    simp [zero]

theorem roundQuotient_one (n : Nat) : roundQuotient n 1 = n := by
  simp [roundQuotient, Nat.mod_one]

/-- A significand with its leading one is assembled without loss. -/
theorem assemble_lifted (negative : Bool) {m shift : Nat} (low : 2 ^ 52 ≤ m) (high : m < 2 ^ 53)
    (little : shift ≤ 52) :
    assemble negative m (-shift) =
      ⟨negative, ⟨1075 - shift, by omega⟩, ⟨m - 2 ^ 52, by rw [Nat.pow_eq]; omega⟩⟩ := by
  have field : (-(shift : Int) + 1075).toNat = 1075 - shift := by omega
  have rest : (m - 2 ^ 52) % 2 ^ 52 = m - 2 ^ 52 := Nat.mod_eq_of_lt (by omega)
  have inside : 1075 - shift < 2047 := by omega
  simp only [assemble, Nat.pow_eq, dif_neg (not_lt.mpr low), if_pos high, field, rest,
    dif_pos inside]

theorem spells_ofInt {n : Int} (positive : n ≠ 0) (small : n.natAbs < 2 ^ 53) :
    (ofInt n).Spells n := by
  have nonzero : n.natAbs ≠ 0 := Int.natAbs_ne_zero.mpr positive
  obtain ⟨low, high⟩ := lifted_bounds nonzero small
  have split := log2_add_lift nonzero small
  have power : max (binaryExponent n.natAbs 1 - 52) (-1074) = -lift n.natAbs := by
    rw [binaryExponent_one nonzero]
    omega
  have assembled : ofInt n =
      assemble (decide (n < 0)) (n.natAbs * 2 ^ lift n.natAbs) (-lift n.natAbs) := by
    rw [ofInt, ofRatio, if_neg nonzero]
    dsimp only
    rw [power, scaleDown_lift, roundQuotient_one]
  rw [assembled, assemble_lifted _ low high (by omega)]
  exact ⟨rfl, rfl, Nat.add_sub_cancel' low⟩

/-! ### Reading back -/

variable {number : Double} {n : Int}

theorem ratio_pos (number : Double) : 0 < number.ratio.2 := by
  rw [ratio]
  split
  · exact Nat.two_pow_pos _
  · exact Nat.one_pos

/-- A double stands for a whole number below `2 ^ 53` if its quotient is that number. -/
theorem toInt?_eq_some_iff : number.toInt? = some n ↔
    number.isFinite = true ∧ number.ratio.1 = n.natAbs * number.ratio.2 ∧ n.natAbs < 2 ^ 53 ∧
      n = if number.negative then -(n.natAbs : Int) else n.natAbs := by
  have positive := number.ratio_pos
  unfold toInt?
  generalize number.ratio = quotient at positive
  obtain ⟨num, den⟩ := quotient
  dsimp only at positive ⊢
  by_cases finite : number.isFinite = true
  · rw [if_pos finite, Option.ite_none_right_eq_some]
    simp only [Bool.and_eq_true, decide_eq_true_eq, Nat.pow_eq, Option.some_inj, finite, true_and]
    constructor
    · rintro ⟨⟨divides, small⟩, rfl⟩
      have magnitude : (if number.negative then -((num / den : Nat) : Int)
          else ((num / den : Nat) : Int)).natAbs = num / den := by
        split
        · rw [Int.natAbs_neg, Int.natAbs_natCast]
        · rw [Int.natAbs_natCast]
      rw [magnitude]
      exact ⟨(Nat.div_mul_cancel (Nat.dvd_of_mod_eq_zero divides)).symm, small, rfl⟩
    · rintro ⟨rfl, small, sign⟩
      rw [Nat.mul_mod_left, Nat.mul_div_cancel _ positive]
      exact ⟨⟨rfl, small⟩, sign.symm⟩
  · simp [finite]

/-- A power that is no more than zero divides the significand. -/
theorem ratio_of_power {shift : Nat} (power : number.power = -shift) :
    number.ratio = (number.significand, 2 ^ shift) := by
  rw [ratio, power, Int.natAbs_neg, Int.natAbs_natCast]
  split
  · rfl
  · have zero : shift = 0 := by omega
    subst zero
    simp

theorem significand_of_normal (normal : number.exponent.val ≠ 0) :
    number.significand = 2 ^ 52 + number.fraction.val ∧
      number.power = (number.exponent.val : Int) - 1075 :=
  ⟨if_neg normal, if_neg normal⟩

/-- A double that stands for a whole number other than zero has a leading one. -/
theorem normal_of_whole {k : Nat} (positive : k ≠ 0)
    (whole : number.ratio.1 = k * number.ratio.2) : number.exponent.val ≠ 0 := by
  intro zero
  have significand : number.significand = number.fraction.val := if_pos zero
  obtain ⟨shift, large, power⟩ : ∃ shift : Nat, 52 ≤ shift ∧ number.power = -shift :=
    ⟨1074, by decide, if_pos zero⟩
  rw [ratio_of_power power, significand] at whole
  have tall : 2 ^ 52 ≤ k * 2 ^ shift :=
    (Nat.pow_le_pow_right (by decide) large).trans
      (Nat.le_mul_of_pos_left _ (Nat.pos_of_ne_zero positive))
  exact absurd (tall.trans_eq whole.symm) (not_le.mpr number.fraction.isLt)

/-- Its power is the one that the number itself decides. -/
theorem power_of_whole {k : Nat} (positive : k ≠ 0) (small : k < 2 ^ 53)
    (whole : number.ratio.1 = k * number.ratio.2) :
    number.power = -lift k ∧ number.significand = k * 2 ^ lift k := by
  have fraction : number.fraction.val < 2 ^ 52 := number.fraction.isLt
  obtain ⟨significand, power⟩ := significand_of_normal (normal_of_whole positive whole)
  by_cases large : 1075 < number.exponent.val
  · -- Twice the least significand is too much already.
    obtain ⟨rest, exponent⟩ := Nat.exists_eq_add_of_lt large
    have up : number.power.natAbs = rest + 1 := by omega
    have scaled : number.ratio = (number.significand * 2 ^ (rest + 1), 1) := by
      rw [ratio, if_neg (by omega), up]
      rfl
    rw [scaled, Nat.mul_one, pow_succ] at whole
    have least : number.significand ≤ number.significand * 2 ^ rest :=
      Nat.le_mul_of_pos_right _ (Nat.two_pow_pos rest)
    dsimp only at whole
    rw [← Nat.mul_assoc] at whole
    omega
  · obtain ⟨shift, exponent⟩ := Nat.exists_eq_add_of_le (not_lt.mp large)
    have down : number.power = -shift := by omega
    rw [ratio_of_power down] at whole
    dsimp only at whole
    have unique : shift = lift k := eq_lift (by omega) (by omega)
    exact ⟨unique ▸ down, unique ▸ whole⟩

theorem spells_of_toInt? (positive : n ≠ 0) (whole : number.toInt? = some n) : number.Spells n := by
  obtain ⟨_, ratio, small, sign⟩ := toInt?_eq_some_iff.mp whole
  have nonzero := Int.natAbs_ne_zero.mpr positive
  obtain ⟨power, significand⟩ := power_of_whole nonzero small ratio
  obtain ⟨leading, field⟩ := significand_of_normal (normal_of_whole nonzero ratio)
  refine ⟨?_, by omega, leading.symm.trans significand⟩
  cases negative : number.negative with
  | true =>
    rw [negative, if_pos rfl] at sign
    exact (decide_eq_true (by omega)).symm
  | false =>
    rw [negative, if_neg Bool.false_ne_true] at sign
    exact (decide_eq_false (by omega)).symm

theorem Spells.toInt? (spells : number.Spells n) (positive : n ≠ 0)
    (small : n.natAbs < 2 ^ 53) : number.toInt? = some n := by
  have split := log2_add_lift (Int.natAbs_ne_zero.mpr positive) small
  have exponent := spells.exponent
  have normal : number.exponent.val ≠ 0 := by omega
  obtain ⟨leading, field⟩ := significand_of_normal normal
  have power : number.power = -lift n.natAbs := by omega
  rw [toInt?_eq_some_iff, ratio_of_power power]
  refine ⟨?_, leading.trans spells.fraction, small, ?_⟩
  · refine bne_iff_ne.mpr fun infinite => ?_
    have := congrArg Fin.val infinite
    omega
  · rw [spells.negative]
    by_cases below : n < 0
    · rw [decide_eq_true below, if_pos rfl]
      omega
    · rw [decide_eq_false below, if_neg Bool.false_ne_true]
      omega

theorem isZero_iff : number.isZero = true ↔ number.ratio.1 = 0 := by
  have powers (power : Nat) : Nat.pow 2 power ≠ 0 := (Nat.two_pow_pos power).ne'
  have bare : number.ratio.1 = 0 ↔ number.significand = 0 := by
    rw [ratio]
    split
    · rfl
    · exact (Nat.mul_eq_zero.trans (or_iff_left (powers _)))
  rw [bare, isZero, significand, Bool.and_eq_true, beq_iff_eq, beq_iff_eq, ← Fin.val_inj]
  split
  · rename_i zero
    exact and_iff_right zero
  · rename_i normal
    refine iff_of_false (fun both => normal both.1) fun sum => ?_
    exact powers 52 (Nat.add_eq_zero_iff.mp sum).1

theorem not_isNaN_of_isFinite (finite : number.isFinite = true) : number.isNaN = false := by
  rw [isNaN, beq_eq_false_iff_ne.mpr (bne_iff_ne.mp finite), Bool.false_and]

/-- A whole number below `2 ^ 53` is read back from its double. -/
theorem toInt?_ofInt (small : n.natAbs < 2 ^ 53) : (ofInt n).toInt? = some n := by
  rcases eq_or_ne n 0 with rfl | positive
  · have zero : (ofInt 0).isZero = true := rfl
    refine toInt?_eq_some_iff.mpr ⟨rfl, ?_, small, rfl⟩
    rw [isZero_iff.mp zero, Int.natAbs_zero, Nat.zero_mul]
  · exact (spells_ofInt positive small).toInt? positive small

/-- A double that stands for a whole number is that number's double, up to the sign of zero. -/
theorem equals_ofInt (whole : number.toInt? = some n) : (ofInt n).equals number = true := by
  obtain ⟨finite, quotient, small, _⟩ := toInt?_eq_some_iff.mp whole
  have proper := not_isNaN_of_isFinite finite
  rcases eq_or_ne n 0 with rfl | positive
  · have zero : number.isZero = true := isZero_iff.mpr (quotient.trans (Nat.zero_mul _))
    have origin : (ofInt 0).isZero = true := rfl
    simp [equals, not_isNaN_ofInt, proper, zero, origin]
  · rw [(spells_ofInt positive small).unique (spells_of_toInt? positive whole)]
    exact equals_self number proper

end Double

/-- A finite number is read back from its document, up to the sign of zero. -/
theorem Document.exists_ofDouble {number : Double} (finite : number.isFinite = true) :
    ∃ numeral, Document.ofDouble number = .number numeral ∧
      numeral.toDouble.equals number = true := by
  rw [Document.ofDouble]
  split
  · rename_i n whole
    exact ⟨.whole n, rfl, Double.equals_ofInt whole⟩
  · rw [if_pos finite]
    exact ⟨.double number, rfl, Double.equals_self number (Double.not_isNaN_of_isFinite finite)⟩

end CodeTree
