import Tepleton.Types.Rational

/-!
# Banker's rounding

`EvaluateBig` decides by the first decimal digit of the remainder and whether it is the last one.  It
nevertheless is rounding to the nearest integer, halves to the even one, and so it is monotone, odd
and commutes with adding even integers.

`Round` rounds the scaled number with `RoundInt64`, which keeps the lower 64 bits only.  It is
accurate exactly as long as the scaled number is rounded to an `int64`.
-/

namespace Tepleton

open Lib

/-- `n` is nearest to `r`, and even if another integer is as near. -/
structure RoundsToEven (r : ℚ) (n : ℤ) : Prop where
  nearest : ∀ m : ℤ, |(n : ℚ) - r| ≤ |(m : ℚ) - r|
  even : ∀ m : ℤ, m ≠ n → |(m : ℚ) - r| = |(n : ℚ) - r| → Even n

theorem evaluateBig_roundsToEven (r : ℚ) : RoundsToEven r (evaluateBig r) := by
  rw [evaluateBig_eq_nearestEven]
  obtain ⟨hhalf, heven⟩ := nearestEven_spec r
  refine ⟨abs_nearestEven_sub_le r, fun m hm htie => heven (le_antisymm hhalf ?_)⟩
  -- two different integers that are equally near are half a unit away
  have hunit : (1 : ℚ) ≤ |(m : ℚ) - nearestEven r| := by
    have hapart : (1 : ℤ) ≤ |m - nearestEven r| := Int.one_le_abs (sub_ne_zero.mpr hm)
    exact_mod_cast hapart
  have htriangle : |(m : ℚ) - nearestEven r| ≤ |(m : ℚ) - r| + |r - nearestEven r| :=
    abs_sub_le _ _ _
  rw [abs_sub_comm r, htie] at htriangle
  linarith

/-- `EvaluateBig` is rounding to the nearest integer, ties to even, with what follows from it. -/
theorem evaluateBig_is_bankers_rounding :
    (∀ r, RoundsToEven r (evaluateBig r)) ∧ (∀ r, |(evaluateBig r : ℚ) - r| ≤ 1 / 2) ∧
      Monotone evaluateBig ∧ (∀ r, evaluateBig (-r) = -evaluateBig r) ∧
      ∀ (r : ℚ) (n : ℤ), Even n → evaluateBig (r + n) = evaluateBig r + n := by
  refine ⟨evaluateBig_roundsToEven, abs_evaluateBig_sub_le, ?_, evaluateBig_neg, ?_⟩
  · intro r r' h
    rw [evaluateBig_eq_nearestEven, evaluateBig_eq_nearestEven]
    exact nearestEven_mono h
  · intro r n hn
    rw [evaluateBig_eq_nearestEven, evaluateBig_eq_nearestEven, nearestEven_add_even r hn]

example : evaluateBig (5 / 2) = 2 ∧ evaluateBig (-7 / 2) = -4 ∧ evaluateBig (251 / 100) = 3 := by
  decide +kernel

/-! ## Rounding to a precision -/

/-- The result is a multiple of `1 / precisionFactor` within half of it. -/
def Accurate (r : ℚ) (precisionFactor : ℤ) (result : Outcome ℚ) : Prop :=
  ∃ q, result = .ok q ∧ (∃ k : ℤ, q = k / precisionFactor) ∧ |q - r| ≤ 1 / (2 * precisionFactor)

theorem abs_evaluateBig_div_sub_le {r : ℚ} {p : ℤ} (hp : 0 < p) :
    |(evaluateBig (r * p) : ℚ) / p - r| ≤ 1 / (2 * p) := by
  have hp' : (0 : ℚ) < p := by exact_mod_cast hp
  have hhalf := abs_evaluateBig_sub_le (r * p)
  calc |(evaluateBig (r * p) : ℚ) / p - r|
      = |(evaluateBig (r * p) : ℚ) - r * p| / p := by
        rw [← abs_of_pos hp', ← abs_div, abs_of_pos hp']
        congr 1
        field_simp
    _ ≤ 1 / 2 / p := by gcongr
    _ = 1 / (2 * p) := by field_simp

theorem evaluateBig_fits_iff (r : ℚ) :
    -2 ^ 63 ≤ evaluateBig r ∧ evaluateBig r < 2 ^ 63 ↔
      -2 ^ 63 - 1 / 2 ≤ r ∧ r < 2 ^ 63 - 1 / 2 := by
  have hlow : Even (-2 ^ 63 : ℤ) := by decide
  have hhigh : Even (2 ^ 63 : ℤ) := by decide
  rw [evaluateBig_eq_nearestEven, le_nearestEven_iff_of_even hlow, ← not_le,
    le_nearestEven_iff_of_even hhigh, not_le]
  push_cast
  rfl

theorem le_abs_int64_sub {x : ℤ} (h : int64 x ≠ x) : 2 ^ 64 ≤ |int64 x - x| := by
  obtain ⟨k, hk⟩ := exists_int64_eq x
  have hk₀ : k ≠ 0 := by
    rintro rfl
    apply h
    rw [hk]
    ring
  have hunit : 1 ≤ |k| := Int.one_le_abs hk₀
  rw [hk, add_sub_cancel_left, abs_mul]
  norm_num
  omega

/-- `Round` is accurate exactly if the scaled number is rounded to an `int64`. -/
theorem round_accurate_iff {r : ℚ} {p : ℤ} (hp : 0 < p) :
    Accurate r p (round r p) ↔ -2 ^ 63 - 1 / 2 ≤ r * p ∧ r * p < 2 ^ 63 - 1 / 2 := by
  have hp' : (0 : ℚ) < p := by exact_mod_cast hp
  have hround : round r p = .ok (roundInt64 (r * p) / p) := quo_eq_ok.mpr ⟨hp'.ne', rfl⟩
  have hexact := abs_evaluateBig_div_sub_le (r := r) hp
  rw [← evaluateBig_fits_iff, hround]
  constructor
  · rintro ⟨q, hq, -, haccurate⟩
    cases hq
    by_contra hfits
    -- two multiples of `1 / p` that are both within half of it are at most one step apart
    have hne : int64 (evaluateBig (r * p)) ≠ evaluateBig (r * p) := by
      intro heq
      apply hfits
      rw [← heq]
      exact int64_range _
    have hfar : (2 : ℚ) ^ 64 ≤ |(int64 (evaluateBig (r * p)) : ℚ) - evaluateBig (r * p)| := by
      exact_mod_cast le_abs_int64_sub hne
    have hnear : |(int64 (evaluateBig (r * p)) : ℚ) - evaluateBig (r * p)| ≤ 1 := by
      calc |(int64 (evaluateBig (r * p)) : ℚ) - evaluateBig (r * p)|
          = |(int64 (evaluateBig (r * p)) : ℚ) / p - evaluateBig (r * p) / p| * p := by
            rw [← sub_div, abs_div, abs_of_pos hp', div_mul_cancel₀ _ hp'.ne']
        _ ≤ (|(int64 (evaluateBig (r * p)) : ℚ) / p - r| + |r - evaluateBig (r * p) / p|) * p := by
            gcongr
            exact abs_sub_le _ _ _
        _ ≤ (1 / (2 * p) + 1 / (2 * p)) * p := by
            rw [abs_sub_comm r]
            gcongr
            exact haccurate
        _ = 1 := by
            field_simp
            norm_num
    have hcontra := hfar.trans hnear
    norm_num at hcontra
  · rintro ⟨hlow, hhigh⟩
    have heq : roundInt64 (r * p) = evaluateBig (r * p) := int64_eq_self hlow hhigh
    rw [heq]
    exact ⟨_, rfl, ⟨evaluateBig (r * p), rfl⟩, hexact⟩

theorem round_accurate_example : Accurate (1 / 3) 1000 (round (1 / 3) 1000) :=
  (round_accurate_iff (by norm_num)).mpr (by norm_num)

/-- `2 ^ 63` itself is rounded to `-2 ^ 63`. -/
theorem round_not_accurate :
    round (2 ^ 63) 1 = .ok (-2 ^ 63) ∧ ¬ Accurate (2 ^ 63) 1 (round (2 ^ 63) 1) := by
  have hround : round (2 ^ 63) 1 = .ok (-2 ^ 63) := by decide +kernel
  refine ⟨hround, ?_⟩
  rw [hround]
  rintro ⟨q, hq, -, haccurate⟩
  cases hq
  norm_num at haccurate

end Tepleton
