import Tepleton.Types.Fault
import Tepleton.Lib.Digits
import Tepleton.Lib.Rounding

/-!
# `types/rational.go`

`sdk.Rat` wraps an exact `big.Rat`, here a rational number.  Division panics on a zero divisor.
`evaluateBig` follows the source's own rounding, digit by digit.
-/

namespace Tepleton

open Lib

def quo (r r2 : ℚ) : Outcome ℚ :=
  if r2 = 0 then .error (.panic .divisionByZero) else .ok (r / r2)

variable {r : ℚ} {n : ℤ}

theorem quo_eq_ok {r2 q : ℚ} : quo r r2 = .ok q ↔ r2 ≠ 0 ∧ r / r2 = q := by
  unfold quo
  split <;> simp_all

/-- `Rat.EvaluateBig`: bankers rounding by the first digit of the remainder. -/
def evaluateBig (r : ℚ) : ℤ :=
  let num := r.num
  let denom : ℤ := r.den
  let d := num.tdiv denom
  if num.tmod denom = 0 then d
  else
    let tenNum := num * 10
    let tenD := d * 10
    let remainderDigit := tenNum.tdiv denom - tenD
    let isFinalDigit := tenNum.tmod denom = 0
    if isFinalDigit ∧ (remainderDigit = 5 ∨ remainderDigit = -5) then d + d.tmod 2
    else if 5 ≤ remainderDigit then d + 1
    else if remainderDigit ≤ -5 then d - 1
    else d

def roundInt64 (r : ℚ) : ℤ := int64 (evaluateBig r)

/-- `Rat.RoundInt`: `NewIntFromBigInt` refuses more than 255 bits. -/
def roundInt (r : ℚ) : Outcome ℤ :=
  if 2 ^ 255 ≤ (evaluateBig r).natAbs then .error (.panic .intOutOfBound)
  else .ok (evaluateBig r)

theorem roundInt_eq_ok (h : roundInt r = .ok n) : n = evaluateBig r := by
  unfold roundInt at h
  split at h
  · cases h
  · cases h
    rfl

/-- `Rat.Round`: `big.NewRat` panics on a zero denominator. -/
def round (r : ℚ) (precisionFactor : ℤ) : Outcome ℚ :=
  quo (roundInt64 (r * precisionFactor)) precisionFactor

/-- A number as a byte. -/
def toByte (n : ℕ) : Byte := Fin.ofNat 256 n

/-- The decimal numeral of a natural number in ASCII, as `big.Int.String` prints it. -/
def decimal (n : ℕ) : Bytes :=
  if n = 0 then [48] else (Nat.digits 10 n).reverse.map fun d => toByte (48 + d)

/-- `Rat.ToLeftPadded` of the rational that rounds to `n`: the numeral is filled up with zeros on
the left, before the sign of a negative number. -/
def toLeftPadded (n : ℤ) (totalDigits : ℕ) : Bytes :=
  let intStr := if n < 0 then 45 :: decimal n.natAbs else decimal n.natAbs
  List.replicate (totalDigits - intStr.length) 48 ++ intStr

@[simp] theorem evaluateBig_intCast (n : ℤ) : evaluateBig (n : ℚ) = n := by
  simp [evaluateBig]

theorem evaluateBig_zero : evaluateBig 0 = 0 := by
  simpa using evaluateBig_intCast 0

theorem toLeftPadded_eq {n width : ℕ} (hwidth : 0 < width) (hn : n < 10 ^ width) :
    toLeftPadded n width = (bigEndian 10 width n).map fun d => toByte (48 + d) := by
  have hpad := replicate_append_digits_reverse hn
  have hsign : ¬ ((n : ℤ) < 0) := by omega
  rw [toLeftPadded, if_neg hsign, Int.natAbs_natCast, ← hpad]
  by_cases hzero : n = 0
  · subst hzero
    obtain ⟨w, rfl⟩ : ∃ w, width = w + 1 := ⟨width - 1, by omega⟩
    simp [decimal, List.replicate_succ', toByte]
  · simp [decimal, hzero, toByte]

/-! ## Rounding is to a nearest integer -/

theorem evaluateBig_neg (r : ℚ) : evaluateBig (-r) = -evaluateBig r := by
  have hnum : (-r).num = -r.num := Rat.neg_num r
  have hden : (-r).den = r.den := Rat.neg_den r
  simp only [evaluateBig, hnum, hden, neg_mul, Int.neg_tdiv, Int.neg_tmod, neg_eq_zero]
  split_ifs <;> omega

/-- The half-unit bound, multiplied out: `d` and `m` are the whole part and the remainder. -/
theorem two_mul_evaluateBig_mul_den (hr : 0 ≤ r) :
    |2 * (evaluateBig r * r.den - r.num)| ≤ r.den := by
  have hnum : 0 ≤ r.num := Rat.num_nonneg.mpr hr
  have hden : (0 : ℤ) < r.den := by exact_mod_cast r.den_pos
  generalize hd : r.num / (r.den : ℤ) = d
  generalize hm : r.num % (r.den : ℤ) = m
  have hd₀ : 0 ≤ d := hd ▸ Int.ediv_nonneg hnum hden.le
  have hm₀ : 0 ≤ m := hm ▸ Int.emod_nonneg _ hden.ne'
  have hm₁ : m < r.den := hm ▸ Int.emod_lt_of_pos _ hden
  have hsplit : r.num = r.den * d + m := by
    rw [← hd, ← hm, Int.mul_ediv_add_emod]
  have hten : r.num * 10 = m * 10 + r.den * (d * 10) := by
    rw [hsplit]
    ring
  have hdigit : r.num * 10 / (r.den : ℤ) - d * 10 = m * 10 / r.den := by
    rw [hten, Int.add_mul_ediv_left _ _ hden.ne']
    ring
  have hfinal : r.num * 10 % (r.den : ℤ) = m * 10 % r.den := by
    rw [hten, Int.add_mul_emod_self_left]
  have hleft := Int.mul_ediv_add_emod (m * 10) r.den
  have hrem₀ := Int.emod_nonneg (m * 10) hden.ne'
  have hrem₁ := Int.emod_lt_of_pos (m * 10) hden
  have hnum10 : 0 ≤ r.num * 10 := by omega
  have hdigit₀ : 0 ≤ m * 10 / (r.den : ℤ) := Int.ediv_nonneg (by omega) hden.le
  simp only [evaluateBig, Int.tdiv_eq_ediv_of_nonneg hnum, Int.tmod_eq_emod_of_nonneg hnum,
    Int.tdiv_eq_ediv_of_nonneg hnum10, Int.tmod_eq_emod_of_nonneg hnum10, hd, hm, hdigit, hfinal,
    Int.tmod_eq_emod_of_nonneg hd₀]
  rw [hsplit]
  generalize m * 10 / (r.den : ℤ) = digit at *
  generalize m * 10 % (r.den : ℤ) = rest at *
  generalize (r.den : ℤ) = den at *
  clear hd hm hdigit hfinal hten hsplit
  rw [abs_le]
  split_ifs with hexact hhalf hup hdown
  · constructor <;> nlinarith
  · obtain ⟨rfl, hhalf⟩ := hhalf
    have hdigit5 : digit = 5 := by omega
    subst hdigit5
    rcases Int.emod_two_eq_zero_or_one d with hpar | hpar <;> rw [hpar] <;>
      constructor <;> nlinarith
  · have hbig : 5 * den ≤ digit * den := by nlinarith
    constructor <;> nlinarith
  · omega
  · have hsmall : digit ≤ 4 := by omega
    constructor <;> nlinarith

theorem abs_evaluateBig_sub_le (r : ℚ) : |(evaluateBig r : ℚ) - r| ≤ 1 / 2 := by
  wlog hr : 0 ≤ r generalizing r with hpos
  · have hneg := hpos (-r) (by linarith)
    rw [evaluateBig_neg, Int.cast_neg, ← abs_neg] at hneg
    rwa [show -(-(evaluateBig r : ℚ) - -r) = evaluateBig r - r by ring] at hneg
  have hden : (0 : ℚ) < r.den := by exact_mod_cast r.den_pos
  have hbound := two_mul_evaluateBig_mul_den hr
  have hcast : |2 * ((evaluateBig r : ℚ) * r.den - r.num)| ≤ r.den := by exact_mod_cast hbound
  have hnum : (r.num : ℚ) = r * r.den := (Rat.mul_den_eq_num r).symm
  rw [hnum, ← sub_mul, ← mul_assoc, abs_mul, abs_of_pos hden, abs_mul, abs_two] at hcast
  have := le_of_mul_le_mul_right (hcast.trans_eq (one_mul _).symm) hden
  linarith

theorem even_evaluateBig_of_den (hden : r.den = 2) : Even (evaluateBig r) := by
  wlog hr : 0 ≤ r generalizing r with hpos
  · have hneg := hpos (r := -r) hden (by linarith)
    rwa [evaluateBig_neg, even_neg] at hneg
  have hnum : 0 ≤ r.num := Rat.num_nonneg.mpr hr
  have hnum10 : 0 ≤ r.num * 10 := by omega
  have hodd : r.num % 2 = 1 := by
    have hcoprime := r.reduced
    rwa [hden, Nat.coprime_two_right, Int.natAbs_odd, Int.odd_iff] at hcoprime
  have hrem : ¬ r.num % 2 = 0 := by omega
  have hhalf : r.num * 10 % 2 = 0 ∧
      (r.num * 10 / 2 - r.num / 2 * 10 = 5 ∨ r.num * 10 / 2 - r.num / 2 * 10 = -5) := by omega
  simp only [evaluateBig, hden, Nat.cast_ofNat, Int.tdiv_eq_ediv_of_nonneg hnum,
    Int.tmod_eq_emod_of_nonneg hnum, Int.tdiv_eq_ediv_of_nonneg hnum10,
    Int.tmod_eq_emod_of_nonneg hnum10, if_neg hrem, if_pos hhalf]
  rw [Int.tmod_eq_emod_of_nonneg (by omega), Int.even_iff]
  omega

theorem evaluateBig_eq_nearestEven (r : ℚ) : evaluateBig r = nearestEven r := by
  refine (nearestEven_eq_iff.mpr ⟨abs_evaluateBig_sub_le r, fun htie => ?_⟩).symm
  obtain ⟨k, hk⟩ : ∃ k : ℤ, r = k / 2 := by
    rcases abs_eq (by norm_num) |>.mp htie with h | h
    · exact ⟨2 * evaluateBig r - 1, by push_cast; linarith⟩
    · exact ⟨2 * evaluateBig r + 1, by push_cast; linarith⟩
  have hdvd : r.den ∣ 2 := by
    have hden := Rat.den_dvd k 2
    rw [Rat.divInt_eq_div, Int.cast_ofNat, ← hk] at hden
    exact_mod_cast hden
  rcases (Nat.dvd_prime Nat.prime_two).mp hdvd with hden | hden
  · have hint : r = r.num := (Rat.den_eq_one_iff r).mp hden |>.symm
    rw [hint, evaluateBig_intCast] at htie
    norm_num at htie
  · exact even_evaluateBig_of_den hden

theorem evaluateBig_le (h : r ≤ n) : evaluateBig r ≤ n := by
  rw [evaluateBig_eq_nearestEven]
  exact nearestEven_le h

theorem le_evaluateBig (h : n ≤ r) : n ≤ evaluateBig r := by
  rw [evaluateBig_eq_nearestEven]
  exact le_nearestEven h

end Tepleton
