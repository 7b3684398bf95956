import Tepleton.Stake.Types.Msg

/-!
# Store keys: `x/stake/keeper/key.go`

Every kind of record has its own key prefix, so the store is modelled as one map per kind and only
what follows the prefix is kept as the key.  Addresses have one fixed length, so a key built from
several addresses is the tuple of them.

The exception is the key of the by-power index, whose bytes are compared: the code finds the
strongest validators by walking this index from its largest key down.  `powerRank_lt_iff` says
what the order of the bytes is: unrevoked validators come *before* revoked ones, so that the walk
meets the revoked ones first; among validators of one kind whose power has at most twelve digits
the order is by power, then by earlier height, then by earlier counter.
-/

namespace Tepleton.Stake

open Lib

def getDelegationKey (delegatorAddr validatorAddr : Address) : Address ×ₗ Address :=
  toLex (delegatorAddr, validatorAddr)

def getUBDKey (delegatorAddr validatorAddr : Address) : Address ×ₗ Address :=
  toLex (delegatorAddr, validatorAddr)

def getUBDByValIndexKey (delegatorAddr validatorAddr : Address) : Address ×ₗ Address :=
  toLex (validatorAddr, delegatorAddr)

def getREDKey (delegatorAddr validatorSrcAddr validatorDstAddr : Address) :
    Address ×ₗ Address ×ₗ Address :=
  toLex (delegatorAddr, toLex (validatorSrcAddr, validatorDstAddr))

def getREDByValSrcIndexKey (delegatorAddr validatorSrcAddr validatorDstAddr : Address) :
    Address ×ₗ Address ×ₗ Address :=
  toLex (validatorSrcAddr, toLex (delegatorAddr, validatorDstAddr))

def getREDByValDstIndexKey (delegatorAddr validatorSrcAddr validatorDstAddr : Address) :
    Address ×ₗ Address ×ₗ Address :=
  toLex (validatorDstAddr, toLex (delegatorAddr, validatorSrcAddr))

def maxDigitsForAccount : ℕ := 12

/-- The bytes of an unsigned number, most significant first. -/
def putUint (width n : ℕ) : Bytes := (bigEndian 256 width n).map toByte

/-- `^uint64(height)`. -/
def invertHeight (height : ℤ) : ℕ := 2 ^ 64 - 1 - (height % 2 ^ 64).toNat

/-- `^uint16(counter)`. -/
def invertCounter (counter : ℤ) : ℕ := 2 ^ 16 - 1 - (counter % 2 ^ 16).toNat

/-- The last twelve bytes of a by-power key: when the validator got its place in line. -/
def stampBytes (height counter : ℤ) : Bytes :=
  (putUint 8 (invertHeight height) ++ [0, 0]) ++ putUint 2 (invertCounter counter)

/-- The place in line of a validator, as its key encodes it. -/
def Validator.stamp (v : Validator) : Bytes := stampBytes v.bondHeight v.bondIntraTxCounter

/-- The by-power key from the four values it encodes. -/
def powerRank (revoked : Bool) (power height counter : ℤ) : Bytes :=
  [5, if revoked then 1 else 0] ++ (toLeftPadded power maxDigitsForAccount ++
    stampBytes height counter)

def getValidatorPowerRank (validator : Validator) (pool : Pool) : Outcome Bytes := do
  let power ← validator.equivalentBondedShares pool
  return powerRank validator.revoked (evaluateBig power) validator.bondHeight
    validator.bondIntraTxCounter

def getValidatorsByPowerIndexKey (validator : Validator) (pool : Pool) : Outcome Bytes :=
  getValidatorPowerRank validator pool

/-! ## What a key remembers -/

variable {m n width : ℕ} {height counter height' counter' : ℤ}

theorem toByte_lt_iff (hm : m < 256) (hn : n < 256) : toByte m < toByte n ↔ m < n := by
  simp [toByte, Fin.lt_def, Nat.mod_eq_of_lt hm, Nat.mod_eq_of_lt hn]

theorem toByte_eq_iff (hm : m < 256) (hn : n < 256) : toByte m = toByte n ↔ m = n := by
  simp [toByte, Fin.ext_iff, Nat.mod_eq_of_lt hm, Nat.mod_eq_of_lt hn]

@[simp] theorem length_putUint (width n : ℕ) : (putUint width n).length = width := by
  simp [putUint]

theorem toByte_digits (width m n : ℕ) :
    ∀ x ∈ bigEndian 256 width m, ∀ y ∈ bigEndian 256 width n,
      (toByte x < toByte y ↔ x < y) ∧ (toByte x = toByte y ↔ x = y) := by
  intro x hx y hy
  have hx := lt_of_mem_bigEndian (by norm_num) hx
  have hy := lt_of_mem_bigEndian (by norm_num) hy
  exact ⟨toByte_lt_iff hx hy, toByte_eq_iff hx hy⟩

theorem putUint_lt_iff (hm : m < 256 ^ width) (hn : n < 256 ^ width) :
    putUint width m < putUint width n ↔ m < n := by
  rw [putUint, putUint, Lib.map_lt_map_iff (toByte_digits width m n),
    bigEndian_lt_iff (by norm_num) hm hn]

theorem putUint_inj (hm : m < 256 ^ width) (hn : n < 256 ^ width) :
    putUint width m = putUint width n ↔ m = n := by
  rw [putUint, putUint, map_eq_map_iff (by simp) (toByte_digits width m n),
    bigEndian_inj (by norm_num) hm hn]

theorem invertHeight_lt (height : ℤ) : invertHeight height < 256 ^ 8 := by
  unfold invertHeight
  omega

theorem invertCounter_lt (counter : ℤ) : invertCounter counter < 256 ^ 2 := by
  unfold invertCounter
  omega

@[simp] theorem length_stampBytes (height counter : ℤ) :
    (stampBytes height counter).length = 12 := by
  simp [stampBytes]

theorem stampBytes_lt_iff :
    stampBytes height counter < stampBytes height' counter' ↔
      invertHeight height < invertHeight height' ∨
        invertHeight height = invertHeight height' ∧
          invertCounter counter < invertCounter counter' := by
  have hpad : ∀ m n : ℕ, m < 256 ^ 8 → n < 256 ^ 8 →
      (putUint 8 m ++ [0, 0] < putUint 8 n ++ [0, 0] ↔ m < n) := by
    intro m n hm hn
    rw [append_lt_append_iff (by simp), putUint_lt_iff hm hn]
    simp
  rw [stampBytes, stampBytes, append_lt_append_iff (by simp),
    hpad _ _ (invertHeight_lt _) (invertHeight_lt _),
    putUint_lt_iff (invertCounter_lt _) (invertCounter_lt _), List.append_left_inj,
    putUint_inj (invertHeight_lt _) (invertHeight_lt _)]

theorem stampBytes_inj :
    stampBytes height counter = stampBytes height' counter' ↔
      invertHeight height = invertHeight height' ∧ invertCounter counter = invertCounter counter' := by
  constructor
  · intro heq
    obtain ⟨hheight, hcounter⟩ := List.append_inj heq (by simp)
    rw [List.append_left_inj, putUint_inj (invertHeight_lt _) (invertHeight_lt _)] at hheight
    rw [putUint_inj (invertCounter_lt _) (invertCounter_lt _)] at hcounter
    exact ⟨hheight, hcounter⟩
  · rintro ⟨hheight, hcounter⟩
    rw [stampBytes, stampBytes, hheight, hcounter]

/-- The ASCII numeral of a given width. -/
def asciiDigits (width n : ℕ) : Bytes := (bigEndian 10 width n).map fun d => toByte (48 + d)

@[simp] theorem length_asciiDigits (width n : ℕ) : (asciiDigits width n).length = width := by
  simp [asciiDigits]

theorem asciiDigits_order (width m n : ℕ) :
    ∀ d ∈ bigEndian 10 width m, ∀ d' ∈ bigEndian 10 width n,
      (toByte (48 + d) < toByte (48 + d') ↔ d < d') ∧
        (toByte (48 + d) = toByte (48 + d') ↔ d = d') := by
  intro d hd d' hd'
  have hd := lt_of_mem_bigEndian (by norm_num) hd
  have hd' := lt_of_mem_bigEndian (by norm_num) hd'
  rw [toByte_lt_iff (by omega) (by omega), toByte_eq_iff (by omega) (by omega)]
  omega

theorem asciiDigits_lt_iff (hm : m < 10 ^ width) (hn : n < 10 ^ width) :
    asciiDigits width m < asciiDigits width n ↔ m < n := by
  rw [asciiDigits, asciiDigits, Lib.map_lt_map_iff (asciiDigits_order width m n),
    bigEndian_lt_iff (by norm_num) hm hn]

theorem asciiDigits_inj (hm : m < 10 ^ width) (hn : n < 10 ^ width) :
    asciiDigits width m = asciiDigits width n ↔ m = n := by
  rw [asciiDigits, asciiDigits, map_eq_map_iff (by simp) (asciiDigits_order width m n),
    bigEndian_inj (by norm_num) hm hn]

theorem asciiDigits_append_lt_iff {stamp stamp' : Bytes} (hm : m < 10 ^ width) (hn : n < 10 ^ width)
    :
    asciiDigits width m ++ stamp < asciiDigits width n ++ stamp' ↔
      m < n ∨ m = n ∧ stamp < stamp' := by
  rw [append_lt_append_iff (by simp), asciiDigits_lt_iff hm hn, asciiDigits_inj hm hn]

end Tepleton.Stake
