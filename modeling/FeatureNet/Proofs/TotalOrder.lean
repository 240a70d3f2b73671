import FeatureNet.Binary64
import Mathlib.Order.Defs.Unbundled

namespace FeatureNet

namespace Binary64

/-- Of a not-a-number: whether it is quiet or signalling, by the first digit of its fraction. -/
def isQuiet (x : Binary64) : Bool := x.magnitude / 0x8000000000000 % 2 = 1

/-- Of a not-a-number: the rest of its fraction. -/
def payload (x : Binary64) : Nat := x.magnitude % 0x8000000000000

/-- A signalling not-a-number is smaller than a quiet one; of one kind the smaller payload is. -/
def NaNLE (x y : Binary64) : Prop :=
  x.isQuiet = false ∧ y.isQuiet = true ∨ x.isQuiet = y.isQuiet ∧ x.payload ≤ y.payload

/-- Numbers come in numeric order, and -0.0 before 0.0. A not-a-number comes before all numbers if its sign is
negative and behind all of them if it is positive; those of one sign come in order of kind and payload, the
negative ones the other way round. -/
inductive TotalLE : Binary64 → Binary64 → Prop
  | less {x y} : x < y → TotalLE x y
  | equal {x y} : x ≤ y → y ≤ x → (y.negative = true → x.negative = true) → TotalLE x y
  | lowest {x y} : x.isNaN = true → x.negative = true → y.isNaN = false → TotalLE x y
  | highest {x y} : x.isNaN = false → y.isNaN = true → y.negative = false → TotalLE x y
  | signs {x y} : x.isNaN = true → y.isNaN = true → x.negative = true → y.negative = false → TotalLE x y
  | positive {x y} : x.isNaN = true → y.isNaN = true → x.negative = false → y.negative = false →
      x.NaNLE y → TotalLE x y
  | negative {x y} : x.isNaN = true → y.isNaN = true → x.negative = true → y.negative = true →
      y.NaNLE x → TotalLE x y

variable {x y : Binary64}

theorem isNaN_iff : x.isNaN = true ↔ infiniteMagnitude < x.magnitude := by simp [isNaN]

theorem not_isNaN_iff : x.isNaN = false ↔ x.magnitude ≤ infiniteMagnitude := by simp [isNaN]

/-- Kind and payload together are what is above the infinite magnitude. -/
theorem nanLE_iff (nanX : x.isNaN = true) (nanY : y.isNaN = true) : x.NaNLE y ↔ x.magnitude ≤ y.magnitude := by
  have belowX := x.magnitude_lt
  have belowY := y.magnitude_lt
  rw [isNaN_iff] at nanX nanY
  unfold infiniteMagnitude at nanX nanY
  simp only [NaNLE, isQuiet, payload, decide_eq_false_iff_not, decide_eq_true_eq, decide_eq_decide]
  omega

theorem rank_of_negative (sign : x.negative = true) : x.rank = -x.magnitude - 1 := by
  rw [rank, if_pos sign]

theorem rank_of_not_negative (sign : x.negative = false) : x.rank = x.magnitude := by
  rw [rank, sign]
  rfl

theorem rank_bounds (x : Binary64) : -x.magnitude - 1 ≤ x.rank ∧ x.rank ≤ x.magnitude := by
  unfold rank
  split <;> omega

/-- A number has its place by its value, and one place lower if it is negative. -/
theorem rank_eq (x : Binary64) : x.rank = if x.negative then x.signedMagnitude - 1 else x.signedMagnitude := by
  unfold rank signedMagnitude
  split <;> rfl

theorem rank_lt_of_signedMagnitude_lt (less : x.signedMagnitude < y.signedMagnitude) : x.rank < y.rank := by
  unfold signedMagnitude at less
  unfold rank
  cases signX : x.negative <;> cases signY : y.negative <;>
    simp only [signX, signY, Bool.false_eq_true, if_true, if_false] at less ⊢ <;> omega

theorem TotalLE.rank_le (le : x.TotalLE y) : x.rank ≤ y.rank := by
  have boundsX := x.rank_bounds
  have boundsY := y.rank_bounds
  cases le with
  | less less => exact Int.le_of_lt (rank_lt_of_signedMagnitude_lt less.2.2)
  | equal le ge signs =>
    rw [rank_eq, rank_eq, Int.le_antisymm le.2.2 ge.2.2]
    split
    · split <;> omega
    · next positive => exact Int.le_of_eq (if_neg fun sign => positive (signs sign)).symm
  | lowest nan sign number =>
    rw [isNaN_iff] at nan
    rw [not_isNaN_iff] at number
    rw [rank_of_negative sign]
    omega
  | highest number nan sign =>
    rw [isNaN_iff] at nan
    rw [not_isNaN_iff] at number
    rw [rank_of_not_negative sign]
    omega
  | signs _ _ signX signY =>
    rw [rank_of_negative signX, rank_of_not_negative signY]
    omega
  | positive nanX nanY signX signY le =>
    rw [nanLE_iff nanX nanY] at le
    rw [rank_of_not_negative signX, rank_of_not_negative signY]
    omega
  | negative nanX nanY signX signY le =>
    rw [nanLE_iff nanY nanX] at le
    rw [rank_of_negative signX, rank_of_negative signY]
    omega

theorem totalLE_of_numbers (numberX : x.isNaN = false) (numberY : y.isNaN = false) (le : x.rank ≤ y.rank) :
    x.TotalLE y := by
  rcases Int.lt_trichotomy x.signedMagnitude y.signedMagnitude with less | same | more
  · exact .less ⟨numberX, numberY, less⟩
  · refine .equal ⟨numberX, numberY, Int.le_of_eq same⟩ ⟨numberY, numberX, Int.le_of_eq same.symm⟩ fun sign => ?_
    refine eq_true_of_ne_false fun positive => ?_
    rw [rank_of_not_negative positive, rank_of_negative sign] at le
    omega
  · exact absurd le (Int.not_le.mpr (rank_lt_of_signedMagnitude_lt more))

theorem totalLE_of_nans (nanX : x.isNaN = true) (nanY : y.isNaN = true) (le : x.rank ≤ y.rank) :
    x.TotalLE y := by
  cases signX : x.negative with
  | false =>
    rw [rank_of_not_negative signX] at le
    cases signY : y.negative with
    | false =>
      rw [rank_of_not_negative signY] at le
      exact .positive nanX nanY signX signY ((nanLE_iff nanX nanY).mpr (by omega))
    | true =>
      rw [rank_of_negative signY] at le
      omega
  | true =>
    rw [rank_of_negative signX] at le
    cases signY : y.negative with
    | false => exact .signs nanX nanY signX signY
    | true =>
      rw [rank_of_negative signY] at le
      exact .negative nanX nanY signX signY ((nanLE_iff nanY nanX).mpr (by omega))

theorem totalLE_of_rank_le (le : x.rank ≤ y.rank) : x.TotalLE y := by
  have boundsX := x.rank_bounds
  have boundsY := y.rank_bounds
  cases nanX : x.isNaN with
  | false =>
    cases nanY : y.isNaN with
    | false => exact totalLE_of_numbers nanX nanY le
    | true =>
      refine .highest nanX nanY (Bool.eq_false_iff.mpr fun sign => ?_)
      rw [not_isNaN_iff] at nanX
      rw [isNaN_iff] at nanY
      rw [rank_of_negative sign] at le
      omega
  | true =>
    cases nanY : y.isNaN with
    | false =>
      refine .lowest nanX (eq_true_of_ne_false fun sign => ?_) nanY
      rw [isNaN_iff] at nanX
      rw [not_isNaN_iff] at nanY
      rw [rank_of_not_negative sign] at le
      omega
    | true => exact totalLE_of_nans nanX nanY le

/-- The places given to the patterns are their places in the total order. -/
theorem totalLE_iff : x.TotalLE y ↔ x.rank ≤ y.rank := ⟨TotalLE.rank_le, totalLE_of_rank_le⟩

instance (x y : Binary64) : Decidable (x.TotalLE y) := decidable_of_iff (x.rank ≤ y.rank) totalLE_iff.symm

instance : IsLinearOrder Binary64 TotalLE where
  refl _ := totalLE_iff.mpr (Int.le_refl _)
  trans _ _ _ xy yz := totalLE_iff.mpr (Int.le_trans xy.rank_le yz.rank_le)
  antisymm _ _ xy yx := rank_inj.mp (Int.le_antisymm xy.rank_le yx.rank_le)
  total x y := (Int.le_total x.rank y.rank).imp totalLE_iff.mpr totalLE_iff.mpr

end Binary64

end FeatureNet
