import FeatureNet.Binary64.Rounding
import Mathlib.Algebra.Order.Group.Nat

namespace FeatureNet

namespace Binary64

theorem roundHalfEven_bounds (num den : Nat) :
    num / den ≤ roundHalfEven num den ∧ roundHalfEven num den ≤ num / den + 1 := by
  have half : num / den % 2 ≤ 1 := by omega
  unfold roundHalfEven
  dsimp only
  split
  · omega
  · split <;> omega

theorem roundHalfEven_mono {m n den : Nat} (le : m ≤ n) :
    roundHalfEven m den ≤ roundHalfEven n den := by
  have quotients : m / den ≤ n / den := Nat.div_le_div_right le
  rcases Nat.lt_or_eq_of_le quotients with less | same
  · have upper := (roundHalfEven_bounds m den).2
    have lower := (roundHalfEven_bounds n den).1
    omega
  · have atM := Nat.div_add_mod m den
    have atN := Nat.div_add_mod n den
    rw [same] at atM
    have rests : m % den ≤ n % den := by omega
    unfold roundHalfEven
    dsimp only
    rw [same]
    split <;> split <;> (try split) <;> (try split) <;> omega

theorem roundHalfEven_mul {q den : Nat} (positive : 0 < den) : roundHalfEven (q * den) den = q := by
  simp [roundHalfEven, Nat.mul_div_cancel _ positive, positive]

theorem leadingBit_eq : leadingBit = 2 ^ 52 := by decide

theorem unitsOf_eq (m : Nat) :
    unitsOf m = if m / 2 ^ 52 = 0 then m else (2 ^ 52 + m % 2 ^ 52) * 2 ^ (m / 2 ^ 52 - 1) := by
  rw [unitsOf, leadingBit_eq, Nat.shiftLeft_eq]

theorem unitsOf_pos {m : Nat} (positive : 0 < m) : 0 < unitsOf m := by
  unfold unitsOf
  split
  · exact positive
  · rw [Nat.shiftLeft_eq]
    have leading : 0 < leadingBit := by decide
    exact Nat.mul_pos (by omega) (Nat.two_pow_pos _)

theorem unitsInOne_eq : unitsInOne = 2 ^ 1074 := by
  rw [unitsInOne]
  generalize 1074 = places
  exact Nat.one_shiftLeft places

theorem unitsInOne_pos : 0 < unitsInOne := by decide

theorem nearest_one (n : Nat) :
    nearest n 1 =
      min infiniteMagnitude ((n.log2 - 52) * 2 ^ 52 + roundHalfEven n (2 ^ (n.log2 - 52))) := by
  rw [nearest, Nat.div_one, Nat.one_shiftLeft, leadingBit_eq]

theorem nearest_le (n : Nat) : nearest n 1 ≤ infiniteMagnitude := by
  rw [nearest_one]
  exact Nat.min_le_left ..

/-- A number whose leading 53 bits are cut out leaves at most 53 bits, and 53 bits exactly if any are
cut off. -/
theorem leading_bits (n : Nat) :
    n / 2 ^ (n.log2 - 52) < 2 ^ 53 ∧ (0 < n.log2 - 52 → 2 ^ 52 ≤ n / 2 ^ (n.log2 - 52)) := by
  constructor
  · rw [Nat.div_lt_iff_lt_mul (Nat.two_pow_pos _), ← Nat.pow_add]
    exact Nat.lt_of_lt_of_le Nat.lt_log2_self (Nat.pow_le_pow_right (by decide) (by omega))
  · intro cut
    have nonzero : n ≠ 0 := by rintro rfl; simp at cut
    rw [Nat.le_div_iff_mul_le (Nat.two_pow_pos _), ← Nat.pow_add]
    exact Nat.le_trans (Nat.pow_le_pow_right (by decide) (by omega)) (Nat.log2_self_le nonzero)

theorem log2_mono {m n : Nat} (le : m ≤ n) : m.log2 ≤ n.log2 := by
  by_cases zero : m = 0
  · simp [zero]
  · exact (Nat.le_log2 (by omega)).mpr (Nat.le_trans (Nat.log2_self_le zero) le)

theorem nearest_mono {m n : Nat} (le : m ≤ n) : nearest m 1 ≤ nearest n 1 := by
  have cuts : m.log2 - 52 ≤ n.log2 - 52 := Nat.sub_le_sub_right (log2_mono le) 52
  suffices steps : (m.log2 - 52) * 2 ^ 52 + roundHalfEven m (2 ^ (m.log2 - 52)) ≤
      (n.log2 - 52) * 2 ^ 52 + roundHalfEven n (2 ^ (n.log2 - 52)) by
    rw [nearest_one, nearest_one]
    omega
  rcases Nat.lt_or_eq_of_le cuts with less | same
  · -- A longer cut moves the exponent on by more than rounding up can add.
    have upper := (roundHalfEven_bounds m (2 ^ (m.log2 - 52))).2
    have lower := (roundHalfEven_bounds n (2 ^ (n.log2 - 52))).1
    have short := (leading_bits m).1
    have full := (leading_bits n).2 (by omega)
    have exponents : (m.log2 - 52 + 1) * 2 ^ 52 ≤ (n.log2 - 52) * 2 ^ 52 :=
      Nat.mul_le_mul_right _ less
    omega
  · rw [same]
    exact Nat.add_le_add_left (roundHalfEven_mono le) _

/-- Rounding changes no number that there is, the infinite one included. -/
theorem nearest_unitsOf {m : Nat} (bound : m ≤ infiniteMagnitude) : nearest (unitsOf m) 1 = m := by
  have parts := Nat.div_add_mod m (2 ^ 52)
  have fraction : m % 2 ^ 52 < 2 ^ 52 := Nat.mod_lt _ (by decide)
  rw [nearest_one]
  rw [unitsOf_eq]
  split
  · next small =>
    have low : m.log2 - 52 = 0 := by
      by_cases zero : m = 0
      · simp [zero]
      · have := (Nat.log2_lt (k := 52) zero).mpr (by omega)
        omega
    have whole : roundHalfEven (m * 1) 1 = m := roundHalfEven_mul (by decide)
    rw [Nat.mul_one] at whole
    rw [low, Nat.pow_zero, whole]
    omega
  · next normal =>
    have positive : 0 < 2 ^ (m / 2 ^ 52 - 1) := Nat.two_pow_pos _
    have nonzero : (2 ^ 52 + m % 2 ^ 52) * 2 ^ (m / 2 ^ 52 - 1) ≠ 0 :=
      Nat.mul_ne_zero (by omega) (Nat.ne_of_gt positive)
    have length : ((2 ^ 52 + m % 2 ^ 52) * 2 ^ (m / 2 ^ 52 - 1)).log2 = 52 + (m / 2 ^ 52 - 1) := by
      rw [Nat.log2_eq_iff nonzero, Nat.add_right_comm, Nat.pow_add, Nat.pow_add]
      exact ⟨Nat.mul_le_mul_right _ (by omega), Nat.mul_lt_mul_of_pos_right (by omega) positive⟩
    rw [length, Nat.add_sub_cancel_left, roundHalfEven_mul positive]
    omega

theorem unitsOf_mono {m n : Nat} (le : m ≤ n) (bound : n ≤ infiniteMagnitude) :
    unitsOf m ≤ unitsOf n := by
  apply Nat.le_of_not_lt
  intro less
  have back := nearest_mono (Nat.le_of_lt less)
  rw [nearest_unitsOf bound, nearest_unitsOf (Nat.le_trans le bound)] at back
  have same : m = n := by omega
  subst same
  omega

/-- Counts of at most 53 bits, shifted by an exponent that there is, are values of numbers. -/
theorem exists_unitsOf_eq {q c : Nat} (short : q < 2 ^ 53) (exponent : c < 2046) :
    ∃ m < infiniteMagnitude, unitsOf m = q * 2 ^ c := by
  induction c generalizing q with
  | zero =>
    by_cases small : q < 2 ^ 52
    · refine ⟨q, by unfold infiniteMagnitude; omega, ?_⟩
      rw [unitsOf_eq, if_pos (Nat.div_eq_of_lt small), Nat.pow_zero, Nat.mul_one]
    · refine ⟨q, by unfold infiniteMagnitude; omega, ?_⟩
      have one : q / 2 ^ 52 = 1 := by omega
      simp only [unitsOf_eq, one, Nat.one_ne_zero, if_false, Nat.sub_self, Nat.pow_zero]
      omega
  | succ c ih =>
    by_cases small : q < 2 ^ 52
    · obtain ⟨m, bound, value⟩ := ih (q := 2 * q) (by omega) (by omega)
      refine ⟨m, bound, ?_⟩
      rw [value, Nat.pow_succ', Nat.mul_comm 2 q, Nat.mul_assoc]
    · refine ⟨(c + 2) * 2 ^ 52 + (q - 2 ^ 52), by unfold infiniteMagnitude; omega, ?_⟩
      have field : ((c + 2) * 2 ^ 52 + (q - 2 ^ 52)) / 2 ^ 52 = c + 2 := by omega
      have rest : ((c + 2) * 2 ^ 52 + (q - 2 ^ 52)) % 2 ^ 52 = q - 2 ^ 52 := by omega
      have whole : 2 ^ 52 + (q - 2 ^ 52) = q := by omega
      have normal : c + 2 ≠ 0 := by omega
      rw [unitsOf_eq, field, rest, whole, if_neg normal]
      rfl

theorem unitsOf_nearest {q c : Nat} (short : q < 2 ^ 53) (exponent : c < 2046) :
    unitsOf (nearest (q * 2 ^ c) 1) = q * 2 ^ c ∧ nearest (q * 2 ^ c) 1 < infiniteMagnitude := by
  obtain ⟨m, bound, value⟩ := exists_unitsOf_eq short exponent
  rw [← value, nearest_unitsOf (Nat.le_of_lt bound)]
  exact ⟨rfl, bound⟩

/-- Sums of whole numbers up to 2 to the 53 are exact. -/
theorem unitsOf_nearest_whole {k : Nat} (bound : k ≤ 2 ^ 53) :
    unitsOf (nearest (k * unitsInOne) 1) = k * unitsInOne ∧
      nearest (k * unitsInOne) 1 < infiniteMagnitude := by
  by_cases below : k < 2 ^ 53
  · rw [unitsInOne_eq]
    exact unitsOf_nearest below (by decide)
  · have top : k = 2 ^ 52 * 2 := by omega
    have shifted : k * unitsInOne = 2 ^ 52 * 2 ^ 1075 := by
      rw [top, Nat.mul_assoc, unitsInOne_eq, Nat.pow_succ' (m := 2) (n := 1074)]
    rw [shifted]
    exact unitsOf_nearest (by decide) (by decide)

end Binary64

end FeatureNet
