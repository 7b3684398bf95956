import Tepleton.Types.Coin
import Tepleton.Types.Strconv

/-!
# `types/int.go`

`Int` and `Uint` wrap a `big.Int` and bound it to 255 bits and a sign, or to 256 bits.  Within the
bounds their operations are exact or panic, although `Mul` looks at the lengths of its operands before
it knows the product.
-/

namespace Tepleton

open Lib

def bitLen (x : ℤ) : ℕ := x.natAbs.size

/-- The range documented for `Int`. -/
def IntRange (x : ℤ) : Prop := -(2 ^ 255 - 1) ≤ x ∧ x ≤ 2 ^ 255 - 1

/-- The range documented for `Uint`. -/
def UintRange (x : ℤ) : Prop := 0 ≤ x ∧ x ≤ 2 ^ 256 - 1

instance (x : ℤ) : Decidable (IntRange x) := inferInstanceAs (Decidable (_ ∧ _))

instance (x : ℤ) : Decidable (UintRange x) := inferInstanceAs (Decidable (_ ∧ _))

/-! ## The operations -/

/-- The check at the end of the operations of `Int`. -/
def boundInt (x : ℤ) : Outcome ℤ := if 255 < bitLen x then .error (.panic .intOverflow) else .ok x

/-- The condition on which `Uint` refuses a number. -/
def UintOverflows (x : ℤ) : Prop := x.sign = -1 ∨ x.sign = 1 ∧ 256 < bitLen x

instance (x : ℤ) : Decidable (UintOverflows x) := inferInstanceAs (Decidable (_ ∨ _))

/-- The check at the end of the operations of `Uint`. -/
def boundUint (x : ℤ) : Outcome ℤ := if UintOverflows x then .error (.panic .uintOverflow) else .ok x

/-- `Int.Mul`. -/
def mulInt (i i2 : ℤ) : Outcome ℤ :=
  if (bitLen i + bitLen i2 : ℤ) - 1 > 255 then .error (.panic .intOverflow) else boundInt (i * i2)

/-- `Int.Div`; `big.Int.Div` leaves a remainder that is not negative, as `/` does. -/
def divInt (i i2 : ℤ) : Outcome ℤ :=
  if i2.sign = 0 then .error (.panic .intDivisionByZero) else .ok (i / i2)

/-- `Int.Neg`. -/
def negInt (i : ℤ) : ℤ := -i

def newInt (n : Int64) : ℤ := n.toInt

/-- `Int.AddRaw`. -/
def addRawInt (i : ℤ) (i2 : Int64) : Outcome ℤ := addInt i (newInt i2)

/-- `Int.SubRaw`. -/
def subRawInt (i : ℤ) (i2 : Int64) : Outcome ℤ := subInt i (newInt i2)

/-- `Int.MulRaw`. -/
def mulRawInt (i : ℤ) (i2 : Int64) : Outcome ℤ := mulInt i (newInt i2)

/-- `Int.DivRaw`. -/
def divRawInt (i : ℤ) (i2 : Int64) : Outcome ℤ := divInt i (newInt i2)

/-- `Uint.Add`. -/
def addUint (i i2 : ℤ) : Outcome ℤ := boundUint (i + i2)

/-- `Uint.Sub`. -/
def subUint (i i2 : ℤ) : Outcome ℤ := boundUint (i - i2)

/-- `Uint.Mul`. -/
def mulUint (i i2 : ℤ) : Outcome ℤ :=
  if (bitLen i + bitLen i2 : ℤ) - 1 > 256 then .error (.panic .uintOverflow) else boundUint (i * i2)

/-- `Uint.Div`. -/
def divUint (i i2 : ℤ) : Outcome ℤ :=
  if i2.sign = 0 then .error (.panic .uintDivisionByZero) else .ok (i / i2)

def newUint (n : UInt64) : ℤ := n.toNat

/-- `Uint.AddRaw`. -/
def addRawUint (i : ℤ) (i2 : UInt64) : Outcome ℤ := addUint i (newUint i2)

/-- `Uint.SubRaw`. -/
def subRawUint (i : ℤ) (i2 : UInt64) : Outcome ℤ := subUint i (newUint i2)

/-- `Uint.MulRaw`. -/
def mulRawUint (i : ℤ) (i2 : UInt64) : Outcome ℤ := mulUint i (newUint i2)

/-- `Uint.DivRaw`. -/
def divRawUint (i : ℤ) (i2 : UInt64) : Outcome ℤ := divUint i (newUint i2)

/-! ## Lengths -/

variable {x i i2 : ℤ}

theorem bitLen_le_iff {k : ℕ} : bitLen x ≤ k ↔ |x| < 2 ^ k := by
  unfold bitLen
  rw [Nat.size_le, ← Int.natCast_natAbs]
  norm_cast

theorem bitLen_le_255_iff : bitLen x ≤ 255 ↔ IntRange x := by
  rw [bitLen_le_iff, abs_lt]
  unfold IntRange
  omega

theorem uintOverflows_iff : UintOverflows x ↔ ¬ UintRange x := by
  unfold UintOverflows UintRange
  rw [Int.sign_eq_neg_one_iff_neg, Int.sign_eq_one_iff_pos, ← not_le, ← not_le, ← not_le,
    bitLen_le_iff, abs_lt]
  omega

theorem bitLen_add_le {y : ℤ} (hx : x ≠ 0) (hy : y ≠ 0) :
    bitLen x + bitLen y ≤ bitLen (x * y) + 1 := by
  unfold bitLen
  have hleft : 0 < x.natAbs.size := Nat.size_pos.mpr (by omega)
  have hright : 0 < y.natAbs.size := Nat.size_pos.mpr (by omega)
  have hxlow : 2 ^ (x.natAbs.size - 1) ≤ x.natAbs := Nat.lt_size.mp (by omega)
  have hylow : 2 ^ (y.natAbs.size - 1) ≤ y.natAbs := Nat.lt_size.mp (by omega)
  have hlow : 2 ^ (x.natAbs.size - 1 + (y.natAbs.size - 1)) ≤ (x * y).natAbs := by
    rw [pow_add, Int.natAbs_mul]
    exact Nat.mul_le_mul hxlow hylow
  have hsize := Nat.lt_size.mpr hlow
  omega

theorem precheck_passes {y : ℤ} {k : ℕ} (hx : bitLen x ≤ k) (hy : bitLen y ≤ k)
    (hproduct : bitLen (x * y) ≤ k) : ¬ (bitLen x + bitLen y : ℤ) - 1 > k := by
  have hzero : bitLen 0 = 0 := by simp [bitLen]
  by_cases hx₀ : x = 0
  · rw [hx₀, hzero]
    omega
  by_cases hy₀ : y = 0
  · rw [hy₀, hzero]
    omega
  have hsum := bitLen_add_le hx₀ hy₀
  omega

/-! ## Exactness -/

/-- The result is the exact one if that is in range, and a panic otherwise. -/
def ExactOrPanics (Range : ℤ → Prop) (overflow : Panic) (exact : ℤ) (result : Outcome ℤ) : Prop :=
  (Range exact → result = .ok exact) ∧ (¬ Range exact → result = .error (.panic overflow))

/-- The arithmetic of a bounded integer type, whose second operand is given by `value`. -/
structure ExactArithmetic {β : Type} (Range : ℤ → Prop) (overflow byZero : Panic) (value : β → ℤ)
    (add sub mul div : ℤ → β → Outcome ℤ) : Prop where
  add {i : ℤ} {i2 : β} : Range i → Range (value i2) →
    ExactOrPanics Range overflow (i + value i2) (add i i2)
  sub {i : ℤ} {i2 : β} : Range i → Range (value i2) →
    ExactOrPanics Range overflow (i - value i2) (sub i i2)
  mul {i : ℤ} {i2 : β} : Range i → Range (value i2) →
    ExactOrPanics Range overflow (i * value i2) (mul i i2)
  div_zero {i : ℤ} {i2 : β} : value i2 = 0 → div i i2 = .error (.panic byZero)
  div {i : ℤ} {i2 : β} : Range i → Range (value i2) → value i2 ≠ 0 →
    ∃ q r, div i i2 = .ok q ∧ Range q ∧ i = value i2 * q + r ∧ 0 ≤ r ∧ r < |value i2|

section Range

variable {β : Type} {Range : ℤ → Prop} {overflow byZero : Panic} {value : β → ℤ}
  {add sub mul div : ℤ → β → Outcome ℤ}

theorem ExactOrPanics.range {exact result : ℤ} {outcome : Outcome ℤ}
    (h : ExactOrPanics Range overflow exact outcome) (hok : outcome = .ok result) :
    Range result := by
  by_cases hin : Range exact
  · rw [h.1 hin] at hok
    cases hok
    exact hin
  · rw [h.2 hin] at hok
    cases hok

theorem ExactArithmetic.div_range (h : ExactArithmetic Range overflow byZero value add sub mul div)
    {i result : ℤ} {i2 : β} (hi : Range i) (hi2 : Range (value i2)) (hok : div i i2 = .ok result) :
    Range result := by
  by_cases hzero : value i2 = 0
  · rw [h.div_zero hzero] at hok
    cases hok
  · obtain ⟨q, r, hq, hrange, -⟩ := h.div hi hi2 hzero
    rw [hq] at hok
    cases hok
    exact hrange

end Range

theorem boundInt_exact (x : ℤ) : ExactOrPanics IntRange .intOverflow x (boundInt x) := by
  unfold boundInt
  rw [ExactOrPanics, ← bitLen_le_255_iff]
  exact ⟨fun h => if_neg (not_lt.mpr h), fun h => if_pos (not_le.mp h)⟩

theorem boundUint_exact (x : ℤ) : ExactOrPanics UintRange .uintOverflow x (boundUint x) := by
  unfold boundUint
  constructor
  · intro h
    exact if_neg fun hoverflows => uintOverflows_iff.mp hoverflows h
  · intro h
    exact if_pos (uintOverflows_iff.mpr h)

theorem addInt_eq_boundInt (i i2 : ℤ) : addInt i i2 = boundInt (i + i2) := by
  unfold addInt boundInt bitLen
  simp only [Nat.lt_size]

theorem subInt_eq_boundInt (i i2 : ℤ) : subInt i i2 = boundInt (i - i2) := by
  unfold subInt boundInt bitLen
  simp only [Nat.lt_size]

theorem mulInt_exact (hi : IntRange i) (hi2 : IntRange i2) :
    ExactOrPanics IntRange .intOverflow (i * i2) (mulInt i i2) := by
  obtain ⟨hexact, hpanics⟩ := boundInt_exact (i * i2)
  unfold mulInt
  constructor
  · intro hproduct
    have hpass := precheck_passes (bitLen_le_255_iff.mpr hi) (bitLen_le_255_iff.mpr hi2)
      (bitLen_le_255_iff.mpr hproduct)
    rw [if_neg (by exact_mod_cast hpass)]
    exact hexact hproduct
  · intro hproduct
    split_ifs
    · rfl
    · exact hpanics hproduct

theorem UintRange.bitLen_le (h : UintRange x) : bitLen x ≤ 256 := by
  unfold UintRange at h
  rw [bitLen_le_iff, abs_lt]
  omega

theorem mulUint_exact (hi : UintRange i) (hi2 : UintRange i2) :
    ExactOrPanics UintRange .uintOverflow (i * i2) (mulUint i i2) := by
  obtain ⟨hexact, hpanics⟩ := boundUint_exact (i * i2)
  unfold mulUint
  constructor
  · intro hproduct
    have hpass := precheck_passes hi.bitLen_le hi2.bitLen_le hproduct.bitLen_le
    rw [if_neg (by exact_mod_cast hpass)]
    exact hexact hproduct
  · intro hproduct
    split_ifs
    · rfl
    · exact hpanics hproduct

theorem abs_ediv_le (i i2 : ℤ) : |i / i2| ≤ |i| := by
  rw [Int.abs_eq_natAbs, Int.abs_eq_natAbs]
  exact_mod_cast Int.natAbs_ediv_le_natAbs i i2

theorem div_euclidean (i : ℤ) (hi2 : i2 ≠ 0) :
    i = i2 * (i / i2) + i % i2 ∧ 0 ≤ i % i2 ∧ i % i2 < |i2| :=
  ⟨(Int.mul_ediv_add_emod i i2).symm, Int.emod_nonneg i hi2, Int.emod_lt_abs i hi2⟩

theorem divInt_of_ne_zero (i : ℤ) (hi2 : i2 ≠ 0) : divInt i i2 = .ok (i / i2) := by
  unfold divInt
  rw [if_neg (by rwa [Int.sign_eq_zero_iff_zero])]

theorem divUint_of_ne_zero (i : ℤ) (hi2 : i2 ≠ 0) : divUint i i2 = .ok (i / i2) := by
  unfold divUint
  rw [if_neg (by rwa [Int.sign_eq_zero_iff_zero])]

theorem IntRange.ediv (hi : IntRange i) (i2 : ℤ) : IntRange (i / i2) := by
  rw [← bitLen_le_255_iff, bitLen_le_iff] at hi ⊢
  exact (abs_ediv_le i i2).trans_lt hi

theorem UintRange.ediv (hi : UintRange i) (hi2 : UintRange i2) : UintRange (i / i2) := by
  refine ⟨Int.ediv_nonneg hi.1 hi2.1, le_trans ?_ hi.2⟩
  have habs := abs_ediv_le i i2
  rwa [abs_of_nonneg hi.1, abs_of_nonneg (Int.ediv_nonneg hi.1 hi2.1)] at habs

theorem intRange_newInt (n : Int64) : IntRange (newInt n) := by
  have hlow := Int64.le_toInt n
  have hhigh := Int64.toInt_lt n
  unfold IntRange newInt
  omega

theorem uintRange_newUint (n : UInt64) : UintRange (newUint n) := by
  have hhigh := UInt64.toNat_lt n
  unfold UintRange newUint
  omega

theorem IntRange.neg (hi : IntRange i) : IntRange (negInt i) := by
  unfold IntRange negInt at *
  omega

theorem exactArithmetic_int :
    ExactArithmetic IntRange .intOverflow .intDivisionByZero id addInt subInt mulInt divInt where
  add {i i2} _ _ := addInt_eq_boundInt i i2 ▸ boundInt_exact _
  sub {i i2} _ _ := subInt_eq_boundInt i i2 ▸ boundInt_exact _
  mul := mulInt_exact
  div_zero h := if_pos (Int.sign_eq_zero_iff_zero.mpr h)
  div {i _} hi _ hne :=
    ⟨_, _, divInt_of_ne_zero i hne, hi.ediv _, div_euclidean i hne⟩

theorem exactArithmetic_uint :
    ExactArithmetic UintRange .uintOverflow .uintDivisionByZero id addUint subUint mulUint
      divUint where
  add _ _ := boundUint_exact _
  sub _ _ := boundUint_exact _
  mul := mulUint_exact
  div_zero h := if_pos (Int.sign_eq_zero_iff_zero.mpr h)
  div {i _} hi hi2 hne :=
    ⟨_, _, divUint_of_ne_zero i hne, hi.ediv hi2, div_euclidean i hne⟩

section Raw

variable {β : Type} {Range : ℤ → Prop} {overflow byZero : Panic}
  {add sub mul div : ℤ → ℤ → Outcome ℤ}

theorem ExactArithmetic.raw (h : ExactArithmetic Range overflow byZero id add sub mul div)
    (value : β → ℤ) :
    ExactArithmetic Range overflow byZero value (fun i i2 => add i (value i2))
      (fun i i2 => sub i (value i2)) (fun i i2 => mul i (value i2))
      (fun i i2 => div i (value i2)) where
  add := h.add
  sub := h.sub
  mul := h.mul
  div_zero := h.div_zero
  div := h.div

end Raw

/-- The operations of `Int` and `Uint` and their raw forms, whose operands are always in range, are
exact or panic, and negation does not leave the range. -/
theorem arithmetic_exact :
    ExactArithmetic IntRange .intOverflow .intDivisionByZero id addInt subInt mulInt divInt ∧
      ExactArithmetic IntRange .intOverflow .intDivisionByZero newInt addRawInt subRawInt mulRawInt
        divRawInt ∧ (∀ n, IntRange (newInt n)) ∧ (∀ i, IntRange i → IntRange (negInt i)) ∧
      ExactArithmetic UintRange .uintOverflow .uintDivisionByZero id addUint subUint mulUint
        divUint ∧
      ExactArithmetic UintRange .uintOverflow .uintDivisionByZero newUint addRawUint subRawUint
        mulRawUint divRawUint ∧ ∀ n, UintRange (newUint n) :=
  ⟨exactArithmetic_int, exactArithmetic_int.raw newInt, intRange_newInt, fun _ hi => hi.neg,
    exactArithmetic_uint, exactArithmetic_uint.raw newUint, uintRange_newUint⟩

end Tepleton
