import Tepleton.Stake.Keeper.Key

/-!
# The order of the by-power index

The index is meant to sort validators by preference: unrevoked before revoked ones, then by power,
then by earlier height and earlier counter.  Its keys do not, for two reasons.

* The flag byte is larger for revoked validators.
* The power is padded to twelve digits, but a longer one is not cut, and nothing stands between it
  and the height: of two powers of different length the keys compare the leading digits.

`rank_sorts_iff` says exactly for which two validators the order of the keys is the right one.
-/

namespace Tepleton.Stake

open Lib

/-- The length of the numeral of a power in a key. -/
def paddedLength (power : ℕ) : ℕ := max maxDigitsForAccount (Nat.digits 10 power).length

/-- Of two powers, the one with the longer numeral also has the larger leading digits. -/
def Comparable (power power' : ℕ) : Prop :=
  (paddedLength power' < paddedLength power →
      power' < power / 10 ^ (paddedLength power - paddedLength power')) ∧
    (paddedLength power < paddedLength power' →
      power < power' / 10 ^ (paddedLength power' - paddedLength power))

instance (power power' : ℕ) : Decidable (Comparable power power') :=
  inferInstanceAs (Decidable (_ ∧ _))

/-- A validator of rounded power `power` is preferred to one of rounded power `power'`. -/
def Preferred (a b : Validator) (power power' : ℤ) : Prop :=
  a.revoked = false ∧ b.revoked = true ∨
    a.revoked = b.revoked ∧ (power' < power ∨
      power = power' ∧ (a.bondHeight < b.bondHeight ∨
        a.bondHeight = b.bondHeight ∧ a.bondIntraTxCounter < b.bondIntraTxCounter))

instance (a b : Validator) (power power' : ℤ) : Decidable (Preferred a b power power') :=
  inferInstanceAs (Decidable (_ ∨ _))

/-- A place in line as the code's `int64` and `int16` fields can hold it, not negative. -/
structure Validator.NonnegStamp (validator : Validator) : Prop where
  bondHeight_nonneg : 0 ≤ validator.bondHeight
  bondHeight_lt : validator.bondHeight < 2 ^ 63
  bondIntraTxCounter_nonneg : 0 ≤ validator.bondIntraTxCounter
  bondIntraTxCounter_lt : validator.bondIntraTxCounter < 2 ^ 15

/-! ## Numerals of any length -/

theorem lt_pow_paddedLength (power : ℕ) : power < 10 ^ paddedLength power :=
  (Nat.lt_base_pow_length_digits (by norm_num)).trans_le
    (Nat.pow_le_pow_right (by norm_num) (le_max_right _ _))

theorem lt_of_paddedLength_lt {power power' : ℕ}
    (hlen : paddedLength power < paddedLength power') : power < power' := by
  have hdigits : paddedLength power < (Nat.digits 10 power').length := by
    unfold paddedLength at hlen ⊢
    omega
  calc power < 10 ^ paddedLength power := lt_pow_paddedLength power
    _ ≤ power' := (Nat.lt_digits_length_iff (by norm_num) power').mp hdigits

theorem toLeftPadded_eq_asciiDigits (power : ℕ) :
    toLeftPadded power maxDigitsForAccount = asciiDigits (paddedLength power) power := by
  have hpos : 0 < paddedLength power := Nat.lt_of_lt_of_le (by decide) (le_max_left _ _)
  have hpad : toLeftPadded power (paddedLength power) = asciiDigits (paddedLength power) power :=
    toLeftPadded_eq hpos (lt_pow_paddedLength power)
  have hsign : ¬ ((power : ℤ) < 0) := by omega
  rw [← hpad, toLeftPadded, toLeftPadded, if_neg hsign, Int.natAbs_natCast, decimal]
  congr 2
  split_ifs with hzero
  · rw [hzero]
    rfl
  · simp only [List.length_map, List.length_reverse, paddedLength]
    omega

theorem stampBytes_eq_cons {height : ℤ} (counter : ℤ) (hheight : 0 ≤ height)
    (hsmall : height < 2 ^ 63) :
    ∃ first rest, stampBytes height counter = first :: rest ∧ toByte 127 < first := by
  refine ⟨_, _, rfl, ?_⟩
  have hfirst : 128 ≤ invertHeight height / 256 ^ 7 % 256 := by
    unfold invertHeight
    omega
  rw [toByte_lt_iff (by norm_num) (Nat.mod_lt _ (by norm_num))]
  exact hfirst

/-- A numeral with a stamp behind it against a longer numeral: the longer one's leading digits
decide, since a stamp is larger than what is left of the digits. -/
theorem asciiDigits_lt_longer_iff {width extra m n : ℕ} {stamp tail : Bytes} {first : Byte}
    (hextra : 0 < extra) (hm : m < 10 ^ width) (hn : n < 10 ^ (width + extra))
    (hfirst : toByte 127 < first) :
    asciiDigits width m ++ first :: stamp < asciiDigits (width + extra) n ++ tail ↔
      m < n / 10 ^ extra := by
  obtain ⟨more, rfl⟩ : ∃ more, extra = more + 1 := ⟨extra - 1, by omega⟩
  have hlead : n / 10 ^ (more + 1) < 10 ^ width := by
    rw [Nat.div_lt_iff_lt_mul (by positivity), ← pow_add]
    exact hn
  have hsplit : asciiDigits (width + (more + 1)) n =
      asciiDigits width (n / 10 ^ (more + 1)) ++
        toByte (48 + n / 10 ^ more % 10) :: asciiDigits more n := by
    rw [asciiDigits, bigEndian_add, List.map_append]
    rfl
  have hdigit : toByte (48 + n / 10 ^ more % 10) < first := by
    refine lt_trans ?_ hfirst
    rw [toByte_lt_iff (by omega) (by norm_num)]
    omega
  rw [hsplit, List.append_assoc, asciiDigits_append_lt_iff hm hlead, List.cons_append,
    List.cons_lt_cons_iff]
  constructor
  · rintro (hlt | ⟨-, hlt | ⟨heq, -⟩⟩)
    · exact hlt
    · exact absurd hlt hdigit.asymm
    · exact absurd heq hdigit.ne'
  · exact Or.inl

/-! ## Keys of two validators -/

/-- The key of a validator of a given rounded power. -/
def Validator.rankKey (validator : Validator) (power : ℕ) : Bytes :=
  powerRank validator.revoked power validator.bondHeight validator.bondIntraTxCounter

theorem Validator.rankKey_eq (validator : Validator) (power : ℕ) :
    validator.rankKey power = [5, if validator.revoked then 1 else 0] ++
      (asciiDigits (paddedLength power) power ++ validator.stamp) := by
  rw [rankKey, powerRank, toLeftPadded_eq_asciiDigits, stamp]

section Keys

variable {a b : Validator} {power power' : ℕ}

theorem stamp_lt_iff (ha : a.NonnegStamp) (hb : b.NonnegStamp) :
    b.stamp < a.stamp ↔ a.bondHeight < b.bondHeight ∨
      a.bondHeight = b.bondHeight ∧ a.bondIntraTxCounter < b.bondIntraTxCounter := by
  obtain ⟨ha1, ha2, ha3, ha4⟩ := ha
  obtain ⟨hb1, hb2, hb3, hb4⟩ := hb
  rw [Validator.stamp, Validator.stamp, stampBytes_lt_iff]
  unfold invertHeight invertCounter
  omega

theorem rankKey_lt_iff_of_length_eq (hrevoked : a.revoked = b.revoked)
    (hlen : paddedLength power = paddedLength power') :
    a.rankKey power < b.rankKey power' ↔ power < power' ∨ power = power' ∧ a.stamp < b.stamp := by
  have hpower' : power' < 10 ^ paddedLength power := hlen ▸ lt_pow_paddedLength power'
  rw [a.rankKey_eq, b.rankKey_eq, hrevoked, append_lt_append_iff rfl, ← hlen,
    asciiDigits_append_lt_iff (lt_pow_paddedLength power) hpower']
  simp

theorem rankKey_lt_iff_of_length_lt (hrevoked : a.revoked = b.revoked) (ha : a.NonnegStamp)
    (hlen : paddedLength power < paddedLength power') :
    a.rankKey power < b.rankKey power' ↔
      power < power' / 10 ^ (paddedLength power' - paddedLength power) := by
  obtain ⟨first, rest, hstamp, hfirst⟩ :=
    stampBytes_eq_cons a.bondIntraTxCounter ha.bondHeight_nonneg ha.bondHeight_lt
  obtain ⟨extra, hextra⟩ : ∃ extra, paddedLength power' = paddedLength power + extra :=
    Nat.exists_eq_add_of_le hlen.le
  have hdiff : paddedLength power' - paddedLength power = extra := by omega
  have hpower' : power' < 10 ^ (paddedLength power + extra) := hextra ▸ lt_pow_paddedLength power'
  rw [a.rankKey_eq, b.rankKey_eq, hrevoked, append_lt_append_iff rfl, Validator.stamp, hstamp,
    hdiff, hextra,
    asciiDigits_lt_longer_iff (by omega) (lt_pow_paddedLength power) hpower' hfirst]
  simp

theorem rankKey_ne_of_length_ne (hlen : paddedLength power ≠ paddedLength power') :
    a.rankKey power ≠ b.rankKey power' := by
  intro heq
  have hlength := congrArg List.length heq
  rw [a.rankKey_eq, b.rankKey_eq] at hlength
  simp only [List.length_append, List.length_cons, List.length_nil, length_asciiDigits,
    Validator.stamp, length_stampBytes] at hlength
  omega

theorem not_sorts_of_revoked_ne (hrevoked : a.revoked ≠ b.revoked) :
    ¬ (b.rankKey power' < a.rankKey power ↔ Preferred a b power power') := by
  have hflag : [(5 : Byte), 0] < [5, 1] := by decide
  rw [a.rankKey_eq, b.rankKey_eq, append_lt_append_iff (by simp)]
  cases ha : a.revoked <;> cases hb : b.revoked
  · exact absurd (ha.trans hb.symm) hrevoked
  · simp [Preferred, ha, hb, hflag.asymm]
  · simp [Preferred, ha, hb, hflag]
  · exact absurd (ha.trans hb.symm) hrevoked

theorem preferred_iff_of_revoked_eq (ha : a.NonnegStamp) (hb : b.NonnegStamp)
    (hrevoked : a.revoked = b.revoked) :
    Preferred a b power power' ↔ power' < power ∨ power' = power ∧ b.stamp < a.stamp := by
  rw [stamp_lt_iff ha hb, Preferred, hrevoked]
  cases b.revoked <;> simp [eq_comm]

theorem sorts_iff_comparable (ha : a.NonnegStamp) (hb : b.NonnegStamp)
    (hrevoked : a.revoked = b.revoked) :
    (b.rankKey power' < a.rankKey power ↔ Preferred a b power power') ↔
      Comparable power power' := by
  rw [preferred_iff_of_revoked_eq ha hb hrevoked, Comparable]
  rcases Nat.lt_trichotomy (paddedLength power) (paddedLength power') with hlen | hlen | hlen
  · -- `b` is stronger, so its key must not be the smaller one
    have hlt := lt_of_paddedLength_lt hlen
    have hne : a.rankKey power ≠ b.rankKey power' := rankKey_ne_of_length_ne hlen.ne
    have hweak : ¬ (power' < power ∨ power' = power ∧ b.stamp < a.stamp) := by omega
    rw [← not_le, ← rankKey_lt_iff_of_length_lt hrevoked ha hlen, hne.le_iff_lt]
    simp [hweak, hlen, hlen.asymm]
  · rw [rankKey_lt_iff_of_length_eq hrevoked.symm hlen.symm]
    simp [hlen]
  · have hlt := lt_of_paddedLength_lt hlen
    rw [rankKey_lt_iff_of_length_lt hrevoked.symm hb hlen]
    simp [hlt, hlen, hlen.asymm]

end Keys

theorem getValidatorPowerRank_eq_rankKey {validator : Validator} {pool : Pool} {power : ℚ}
    (hpower : validator.equivalentBondedShares pool = .ok power) (hnonneg : 0 ≤ evaluateBig power) :
    getValidatorPowerRank validator pool =
      .ok (validator.rankKey (evaluateBig power).toNat) := by
  rw [getValidatorPowerRank, hpower, Validator.rankKey, Int.toNat_of_nonneg hnonneg]
  rfl

/-- The keys of two validators sort like the validators exactly when both or none are revoked and
neither power has a longer numeral with smaller leading digits. -/
theorem rank_sorts_iff {a b : Validator} {pool : Pool} {power power' : ℚ} (ha : a.NonnegStamp)
    (hb : b.NonnegStamp) (hpower : a.equivalentBondedShares pool = .ok power)
    (hpower' : b.equivalentBondedShares pool = .ok power') (hnonneg : 0 ≤ evaluateBig power)
    (hnonneg' : 0 ≤ evaluateBig power') :
    ∃ key key', getValidatorPowerRank a pool = .ok key ∧ getValidatorPowerRank b pool = .ok key' ∧
      ((key' < key ↔ Preferred a b (evaluateBig power) (evaluateBig power')) ↔
        a.revoked = b.revoked ∧
          Comparable (evaluateBig power).toNat (evaluateBig power').toNat) := by
  refine ⟨_, _, getValidatorPowerRank_eq_rankKey hpower hnonneg,
    getValidatorPowerRank_eq_rankKey hpower' hnonneg', ?_⟩
  have hcast := Int.toNat_of_nonneg hnonneg
  have hcast' := Int.toNat_of_nonneg hnonneg'
  rw [← hcast, ← hcast', Int.toNat_natCast, Int.toNat_natCast]
  by_cases hrevoked : a.revoked = b.revoked
  · rw [sorts_iff_comparable ha hb hrevoked]
    simp [hrevoked]
  · exact iff_of_false (not_sorts_of_revoked_ne hrevoked) fun hright => hrevoked hright.1

/-- A validator with its place in line. -/
def ranked (revoked : Bool) (poolShares : PoolShares) (bondHeight bondIntraTxCounter : ℤ) :
    Validator :=
  ⟨[1], [1], revoked, poolShares, poolShares.amount, ⟨"", "", "", ""⟩, bondHeight,
    bondIntraTxCounter⟩

/-- Of two validators of equal power the one bonded at the earlier height has the larger key. -/
theorem rank_sorts_example :
    ∃ key key',
      getValidatorPowerRank (ranked false ⟨.bonded, 5⟩ 3 0) initialPool = .ok key ∧
      getValidatorPowerRank (ranked false ⟨.bonded, 5⟩ 4 0) initialPool = .ok key' ∧
      ((key' < key ↔ Preferred (ranked false ⟨.bonded, 5⟩ 3 0) (ranked false ⟨.bonded, 5⟩ 4 0)
          (evaluateBig 5) (evaluateBig 5)) ↔
        false = false ∧ Comparable (evaluateBig 5).toNat (evaluateBig 5).toNat) :=
  rank_sorts_iff ⟨by decide, by decide, by decide, by decide⟩
    ⟨by decide, by decide, by decide, by decide⟩ rfl rfl (by decide +kernel) (by decide +kernel)

/-- A revoked, unbonded validator with five tokens has a larger key than an unrevoked, bonded one
with ten. -/
theorem revoked_ranks_first :
    let pool : Pool := { initialPool with
      unbondedTokens := 5, unbondedShares := 5, bondedTokens := 10, bondedShares := 10 }
    let a := ranked false ⟨.bonded, 10⟩ 3 0
    let b := ranked true ⟨.unbonded, 5⟩ 4 0
    Preferred a b 10 5 ∧
      passes (fun key => passes (fun key' => decide (key < key')) (getValidatorPowerRank b pool))
        (getValidatorPowerRank a pool) = true := by
  decide +kernel

-- A thousand billion tokens rank behind two hundred billion.
example :
    let a := ranked false ⟨.bonded, 10 ^ 12⟩ 3 0
    let b := ranked false ⟨.bonded, 2 * 10 ^ 11⟩ 4 0
    Preferred a b (10 ^ 12) (2 * 10 ^ 11) ∧
      passes (fun key => passes (fun key' => decide (key < key'))
        (getValidatorPowerRank b initialPool)) (getValidatorPowerRank a initialPool) = true := by
  decide +kernel

end Tepleton.Stake
