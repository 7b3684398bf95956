import Mathlib

/-!
# Rounding to the nearest integer, ties to even

`nearestEven r` is the integer next to `r`, and of two that are equally near the even one.  It is the
only integer with this property (`nearestEven_eq_iff`).

`drift` moves a quantity on the grid of the multiples of `1 / scale`, inside a band whose ends are on
the grid: the moved quantity is cut to the band and rounded to the grid.  It stays on the grid and in
the band, never moves against the sign of the change, and by at most the change and half a unit.
-/

namespace Tepleton.Lib

/-- The integer nearest to `r`; halves go to the even neighbour. -/
def nearestEven (r : ℚ) : ℤ :=
  if r - ⌊r⌋ < 1 / 2 then ⌊r⌋
  else if r - ⌊r⌋ = 1 / 2 then if Even ⌊r⌋ then ⌊r⌋ else ⌊r⌋ + 1
  else ⌊r⌋ + 1

theorem nearestEven_spec (r : ℚ) :
    |(nearestEven r : ℚ) - r| ≤ 1 / 2 ∧ (|(nearestEven r : ℚ) - r| = 1 / 2 → Even (nearestEven r)) := by
  have hlow := Int.floor_le r
  have hhigh := Int.lt_floor_add_one r
  unfold nearestEven
  split_ifs with hbelow hhalf heven
  · have habs : |(⌊r⌋ : ℚ) - r| < 1 / 2 := by
      rw [abs_lt]
      constructor <;> linarith
    exact ⟨habs.le, fun htie => absurd htie habs.ne⟩
  · refine ⟨?_, fun _ => heven⟩
    rw [abs_le]
    constructor <;> linarith
  · refine ⟨?_, fun _ => (Int.not_even_iff_odd.mp heven).add_odd odd_one⟩
    push_cast
    rw [abs_le]
    constructor <;> linarith
  · have habove : 1 / 2 < r - ⌊r⌋ := lt_of_le_of_ne (not_lt.mp hbelow) (Ne.symm hhalf)
    have habs : |((⌊r⌋ + 1 : ℤ) : ℚ) - r| < 1 / 2 := by
      push_cast
      rw [abs_lt]
      constructor <;> linarith
    exact ⟨habs.le, fun htie => absurd htie habs.ne⟩

theorem eq_of_nearest {r : ℚ} {m n : ℤ} (hm : |(m : ℚ) - r| ≤ 1 / 2)
    (hm' : |(m : ℚ) - r| = 1 / 2 → Even m) (hn : |(n : ℚ) - r| ≤ 1 / 2)
    (hn' : |(n : ℚ) - r| = 1 / 2 → Even n) : m = n := by
  rw [abs_le] at hm hn
  by_contra hne
  -- they are neighbours with `r` in the middle, but neighbours are not both even
  wlog hlt : m < n generalizing m n with hsym
  · exact hsym hn hn' hm hm' (Ne.symm hne) (lt_of_le_of_ne (not_lt.mp hlt) (Ne.symm hne))
  have hstep : (m : ℚ) + 1 ≤ n := by exact_mod_cast hlt
  have hnext : n = m + 1 := by
    have hle : (n : ℚ) ≤ m + 1 := by linarith
    have hle' : n ≤ m + 1 := by exact_mod_cast hle
    omega
  have hcast : (n : ℚ) = m + 1 := by rw [hnext]; push_cast; rfl
  have hmiddle : r = m + 1 / 2 := by linarith
  have hmeven : Even m := hm' (by rw [hmiddle]; norm_num)
  have hneven : Even n := hn' (by rw [hmiddle, hcast]; norm_num)
  rw [hnext] at hneven
  exact Int.not_even_iff_odd.mpr (hmeven.add_odd odd_one) hneven

theorem nearestEven_eq_iff {r : ℚ} {n : ℤ} :
    nearestEven r = n ↔ |(n : ℚ) - r| ≤ 1 / 2 ∧ (|(n : ℚ) - r| = 1 / 2 → Even n) := by
  constructor
  · rintro rfl
    exact nearestEven_spec r
  · rintro ⟨hn, hn'⟩
    obtain ⟨hr, hr'⟩ := nearestEven_spec r
    exact eq_of_nearest hr hr' hn hn'

theorem nearestEven_le {r : ℚ} {n : ℤ} (h : r ≤ n) : nearestEven r ≤ n := by
  have hhalf := (abs_le.mp (nearestEven_spec r).1).2
  have hlt : (nearestEven r : ℚ) < n + 1 := by linarith
  exact Int.lt_add_one_iff.mp (by exact_mod_cast hlt)

theorem le_nearestEven {r : ℚ} {n : ℤ} (h : n ≤ r) : n ≤ nearestEven r := by
  have hhalf := (abs_le.mp (nearestEven_spec r).1).1
  have hlt : (n : ℚ) < nearestEven r + 1 := by linarith
  exact Int.lt_add_one_iff.mp (by exact_mod_cast hlt)

theorem abs_nearestEven_sub_le (r : ℚ) (n : ℤ) : |(nearestEven r : ℚ) - r| ≤ |(n : ℚ) - r| := by
  by_cases hn : n = nearestEven r
  · rw [hn]
  -- another integer is at least one unit away from the rounded value
  have hunit : (1 : ℚ) ≤ |(n : ℚ) - nearestEven r| := by
    have hapart : (1 : ℤ) ≤ |n - nearestEven r| := Int.one_le_abs (sub_ne_zero.mpr hn)
    exact_mod_cast hapart
  have htriangle : |(n : ℚ) - nearestEven r| ≤ |(n : ℚ) - r| + |r - nearestEven r| := abs_sub_le _ _ _
  have hhalf := (nearestEven_spec r).1
  rw [abs_sub_comm r] at htriangle
  linarith

theorem nearestEven_mono : Monotone nearestEven := by
  intro r r' h
  by_contra hlt
  rw [not_le] at hlt
  obtain ⟨hr, hr'⟩ := nearestEven_spec r
  obtain ⟨hs, hs'⟩ := nearestEven_spec r'
  have hunit : (nearestEven r' : ℚ) + 1 ≤ nearestEven r := by exact_mod_cast hlt
  have hrhigh := (abs_le.mp hr).2
  have hslow := (abs_le.mp hs).1
  -- the two rounded values are neighbours and `r = r'` lies in the middle
  have heq : r = r' := by linarith
  rw [heq] at hlt
  exact lt_irrefl _ hlt

theorem nearestEven_add_even (r : ℚ) {n : ℤ} (hn : Even n) :
    nearestEven (r + n) = nearestEven r + n := by
  obtain ⟨hr, hr'⟩ := nearestEven_spec r
  have habs : |((nearestEven r + n : ℤ) : ℚ) - (r + n)| = |(nearestEven r : ℚ) - r| := by
    congr 1
    push_cast
    ring
  apply nearestEven_eq_iff.mpr
  rw [habs]
  exact ⟨hr, fun htie => (hr' htie).add hn⟩

theorem le_nearestEven_iff_of_even {r : ℚ} {n : ℤ} (hn : Even n) :
    n ≤ nearestEven r ↔ (n : ℚ) - 1 / 2 ≤ r := by
  obtain ⟨hr, hr'⟩ := nearestEven_spec r
  rw [abs_le] at hr
  constructor
  · intro hle
    have hle' : (n : ℚ) ≤ nearestEven r := by exact_mod_cast hle
    linarith
  · intro hle
    by_contra hlt
    rw [not_le] at hlt
    have hunit : (nearestEven r : ℚ) + 1 ≤ n := by exact_mod_cast hlt
    -- then `r` is half-way between the rounded value and `n`, and both are even
    have hmiddle : (nearestEven r : ℚ) - r = -(1 / 2) := by linarith
    have heven : Even (nearestEven r) := by
      apply hr'
      rw [hmiddle, abs_neg, abs_of_pos (by norm_num)]
    have hnext : n = nearestEven r + 1 := by
      have hcast : (n : ℚ) = (nearestEven r + 1 : ℤ) := by
        push_cast
        linarith
      exact_mod_cast hcast
    rw [hnext] at hn
    exact Int.not_even_iff_odd.mpr (heven.add_odd odd_one) hn

/-! ## A quantity that drifts inside a band -/

section Drift

variable {scale : ℚ} {low high k : ℤ} {change : ℚ}

/-- The quantity `k / scale` after a change, in units of the grid, inside the band from
`low / scale` to `high / scale`. -/
def drift (scale : ℚ) (low high k : ℤ) (change : ℚ) : ℤ :=
  nearestEven (max (low / scale) (min (high / scale) (k / scale + change)) * scale)

theorem low_le_drift (hscale : 0 < scale) : low ≤ drift scale low high k change := by
  apply le_nearestEven
  rw [← div_le_iff₀ hscale]
  exact le_max_left _ _

theorem drift_le_high (hscale : 0 < scale) (hband : low ≤ high) :
    drift scale low high k change ≤ high := by
  apply nearestEven_le
  rw [← le_div_iff₀ hscale]
  have hends : (low : ℚ) / scale ≤ high / scale := by
    rw [div_le_div_iff_of_pos_right hscale]
    exact_mod_cast hband
  exact max_le hends (min_le_left _ _)

theorem le_drift (hscale : 0 < scale) (hhigh : k ≤ high) (hchange : 0 ≤ change) :
    k ≤ drift scale low high k change := by
  apply le_nearestEven
  rw [← div_le_iff₀ hscale]
  have hk : (k : ℚ) / scale ≤ high / scale := by
    rw [div_le_div_iff_of_pos_right hscale]
    exact_mod_cast hhigh
  exact le_max_of_le_right (le_min hk (by linarith))

theorem drift_le (hscale : 0 < scale) (hlow : low ≤ k) (hchange : change ≤ 0) :
    drift scale low high k change ≤ k := by
  apply nearestEven_le
  rw [← le_div_iff₀ hscale]
  have hk : (low : ℚ) / scale ≤ k / scale := by
    rw [div_le_div_iff_of_pos_right hscale]
    exact_mod_cast hlow
  exact max_le hk (min_le_of_right_le (by linarith))

theorem abs_clamp_sub_le {lo hi x change : ℚ} (hlo : lo ≤ x) (hhi : x ≤ hi) :
    |max lo (min hi (x + change)) - x| ≤ |change| := by
  have habove := le_abs_self change
  have hbelow := neg_abs_le change
  have hnonneg := abs_nonneg change
  rw [abs_le]
  constructor
  · have hle : x - |change| ≤ max lo (min hi (x + change)) :=
      le_max_of_le_right (le_min (by linarith) (by linarith))
    linarith
  · have hle : max lo (min hi (x + change)) ≤ x + |change| :=
      max_le (by linarith) (min_le_of_right_le (by linarith))
    linarith

theorem abs_drift_sub_le (hscale : 0 < scale) (hlow : low ≤ k) (hhigh : k ≤ high) :
    |drift scale low high k change / scale - k / scale| ≤ |change| + 1 / (2 * scale) := by
  have hlo : (low : ℚ) / scale ≤ k / scale := by
    rw [div_le_div_iff_of_pos_right hscale]
    exact_mod_cast hlow
  have hhi : (k : ℚ) / scale ≤ high / scale := by
    rw [div_le_div_iff_of_pos_right hscale]
    exact_mod_cast hhigh
  have hcut := @abs_clamp_sub_le _ _ _ change hlo hhi
  generalize hc : max ((low : ℚ) / scale) (min (high / scale) (k / scale + change)) = cut at hcut
  have hround : |drift scale low high k change / scale - cut| ≤ 1 / (2 * scale) := by
    have hhalf := (nearestEven_spec (cut * scale)).1
    rw [drift, hc]
    calc |(nearestEven (cut * scale) : ℚ) / scale - cut|
        = |(nearestEven (cut * scale) : ℚ) - cut * scale| / scale := by
          rw [← abs_of_pos hscale, ← abs_div, abs_of_pos hscale]
          congr 1
          field_simp
      _ ≤ 1 / 2 / scale := by gcongr
      _ = 1 / (2 * scale) := by field_simp
  calc |(drift scale low high k change : ℚ) / scale - k / scale|
      = |(drift scale low high k change / scale - cut) + (cut - k / scale)| := by ring_nf
    _ ≤ |drift scale low high k change / scale - cut| + |cut - k / scale| := abs_add_le _ _
    _ ≤ |change| + 1 / (2 * scale) := by linarith

end Drift

end Tepleton.Lib
