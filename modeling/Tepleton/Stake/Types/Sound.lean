import Tepleton.Stake.Types.Validator

/-!
# Sound pools and validators

A pool is sound when its token counts are not negative and add up to a supply that fits an `int64`,
its shares are not negative, and no tokens are held without shares.  On a sound pool the machine
arithmetic is exact: `removeShares_eq` and `addTokens_eq` give the results of the two pool
operations without wrap-around, and removing shares that exist never panics.

Adding tokens leaves every exchange rate as it is (`shareExRate_addTokens`); removing shares moves
the rate by the rounding of the tokens handed out, which is where all inexactness comes from.
-/

namespace Tepleton.Stake

open Lib

namespace Pool

/-- All tokens of the pool, before `TokenSupply` makes an `int64` of the sum. -/
def total (p : Pool) : ℤ :=
  p.looseTokens + p.unbondedTokens + p.unbondingTokens + p.bondedTokens

/-- The pool with `removed` tokens made loose against `shares` shares of `status`. -/
def afterRemove (p : Pool) (status : BondStatus) (shares : ℚ) (removed : ℤ) : Pool :=
  p.withPart status (p.tokens status - removed) (p.shares status - shares) (p.looseTokens + removed)

/-- The pool with `amount` loose tokens put against new shares of `status`. -/
def afterAdd (p : Pool) (status : BondStatus) (amount : ℤ) : Pool :=
  p.withPart status (p.tokens status + amount) (p.shares status + amount / p.shareExRate status)
    (p.looseTokens - amount)

/-- No count is negative, the tokens add up to `supply`, and no tokens are held without shares. -/
@[mk_iff] structure Sound (supply : ℤ) (p : Pool) : Prop where
  loose : 0 ≤ p.looseTokens
  tokens : ∀ status, 0 ≤ p.tokens status
  total : p.total = supply
  fits : supply < 2 ^ 63
  shares : ∀ status, 0 ≤ p.shares status
  backed : ∀ status, p.shares status = 0 → p.tokens status = 0

instance (supply : ℤ) (p : Pool) : Decidable (p.Sound supply) :=
  decidable_of_iff' _ (sound_iff supply p)

theorem total_withPart (p : Pool) (status : BondStatus) (tokens : ℤ) (shares : ℚ) (loose : ℤ) :
    (p.withPart status tokens shares loose).total =
      p.total - p.tokens status + tokens - p.looseTokens + loose := by
  cases status <;> simp only [total, withPart, Pool.tokens] <;> ring

theorem afterRemove_afterAdd (p : Pool) (status : BondStatus) (amount : ℤ) :
    (p.afterAdd status amount).afterRemove status (amount / p.shareExRate status) amount = p := by
  cases status <;> simp [afterAdd, afterRemove, withPart, Pool.tokens, Pool.shares]

theorem unbondedTokens_eq (p : Pool) : p.unbondedTokens = p.tokens .unbonded := rfl

namespace Sound

variable {supply : ℤ} {p : Pool} {status : BondStatus}

theorem tokenSupply_eq (hp : p.Sound supply) : p.tokenSupply = supply := by
  have htotal := hp.total
  have hfits := hp.fits
  have hloose := hp.loose
  have hunbonded := hp.tokens .unbonded
  have hunbonding := hp.tokens .unbonding
  have hbonded := hp.tokens .bonded
  simp only [Pool.total, Pool.tokens] at htotal hunbonded hunbonding hbonded
  rw [tokenSupply, int64_eq_self] <;> omega

theorem loose_add_tokens_le (hp : p.Sound supply) (status : BondStatus) :
    p.looseTokens + p.tokens status ≤ supply := by
  have htotal := hp.total
  have hunbonded := hp.tokens .unbonded
  have hunbonding := hp.tokens .unbonding
  have hbonded := hp.tokens .bonded
  simp only [Pool.total, Pool.tokens] at htotal hunbonded hunbonding hbonded
  cases status <;> simp only [Pool.tokens] <;> omega

theorem rate_nonneg (hp : p.Sound supply) (status : BondStatus) : 0 ≤ p.shareExRate status := by
  unfold shareExRate
  split_ifs
  · exact zero_le_one
  · exact div_nonneg (by exact_mod_cast hp.tokens status) (hp.shares status)

theorem rate_mul_shares (hp : p.Sound supply) (status : BondStatus) :
    p.shareExRate status * p.shares status = p.tokens status := by
  unfold shareExRate
  split_ifs with hzero
  · rw [hzero, hp.backed status hzero]
    simp
  · exact div_mul_cancel₀ _ hzero

variable {x : ℚ} {amount : ℤ}

theorem rate_mul_le (hp : p.Sound supply) (hx : x ≤ p.shares status) :
    p.shareExRate status * x ≤ p.tokens status := by
  rw [← hp.rate_mul_shares status]
  exact mul_le_mul_of_nonneg_left hx (hp.rate_nonneg status)

theorem removed_range (hp : p.Sound supply) (hnonneg : 0 ≤ x) (hx : x ≤ p.shares status) :
    0 ≤ evaluateBig (p.shareExRate status * x) ∧
      evaluateBig (p.shareExRate status * x) ≤ p.tokens status := by
  constructor
  · exact le_evaluateBig (by exact_mod_cast mul_nonneg (hp.rate_nonneg status) hnonneg)
  · exact evaluateBig_le (hp.rate_mul_le hx)

/-! ## Removing shares -/

theorem removeTokens (hp : p.Sound supply) {removed : ℤ} (hx : x ≤ p.shares status)
    (hremoved : 0 ≤ removed) (htokens : removed ≤ p.tokens status)
    (hall : x = p.shares status → removed = p.tokens status) :
    (p.afterRemove status x removed).Sound supply where
  loose := by
    have hloose := hp.loose
    simp only [afterRemove, looseTokens_withPart]
    omega
  tokens other := by
    simp only [afterRemove, tokens_withPart]
    split_ifs
    · omega
    · exact hp.tokens other
  total := by
    have htotal := hp.total
    rw [afterRemove, total_withPart]
    omega
  fits := hp.fits
  shares other := by
    simp only [afterRemove, shares_withPart]
    split_ifs
    · linarith
    · exact hp.shares other
  backed other := by
    simp only [afterRemove, shares_withPart, tokens_withPart]
    split_ifs
    · intro hzero
      rw [hall (by linarith)]
      exact sub_self _
    · exact hp.backed other

theorem afterRemove (hp : p.Sound supply) (hnonneg : 0 ≤ x) (hx : x ≤ p.shares status) :
    (p.afterRemove status x (evaluateBig (p.shareExRate status * x))).Sound supply := by
  obtain ⟨hremoved, htokens⟩ := hp.removed_range hnonneg hx
  refine hp.removeTokens hx hremoved htokens ?_
  rintro rfl
  rw [hp.rate_mul_shares, evaluateBig_intCast]

theorem removeShares_eq (hp : p.Sound supply) (hnonneg : 0 ≤ x) (hx : x ≤ p.shares status) :
    p.removeShares status x = .ok (p.afterRemove status x (evaluateBig (p.shareExRate status * x)),
      evaluateBig (p.shareExRate status * x)) := by
  obtain ⟨hremoved, htokens⟩ := hp.removed_range hnonneg hx
  have hsound := hp.afterRemove hnonneg hx
  have hloose := hp.loose
  have hle := hp.loose_add_tokens_le status
  have hfits := hp.fits
  generalize hr : evaluateBig (p.shareExRate status * x) = removed at *
  have hround : roundInt64 (p.shareExRate status * x) = removed := by
    rw [roundInt64, hr, int64_eq_self] <;> omega
  have htokens' : int64 (p.tokens status - removed) = p.tokens status - removed := by
    rw [int64_eq_self] <;> omega
  have hloose' : int64 (p.looseTokens + removed) = p.looseTokens + removed := by
    rw [int64_eq_self] <;> omega
  have hunbonded := hsound.tokens .unbonded
  rw [← unbondedTokens_eq, Pool.afterRemove] at hunbonded
  simp only [removeShares, hround, htokens', hloose', not_lt.mpr hunbonded, if_false]
  rfl

theorem shareExRate_afterRemove (hp : p.Sound supply) (removed : ℤ) (hx : x ≠ p.shares status) :
    (p.afterRemove status x removed).shareExRate status * (p.shares status - x) =
      p.shareExRate status * (p.shares status - x) +
        (p.shareExRate status * x - removed) := by
  have hleft : p.shares status - x ≠ 0 := sub_ne_zero.mpr hx.symm
  have htokens := hp.rate_mul_shares status
  rw [shareExRate, Pool.afterRemove, shares_withPart, tokens_withPart, if_pos rfl,
    if_pos rfl, if_neg hleft, div_mul_cancel₀ _ hleft, mul_sub, htokens]
  push_cast
  ring

theorem shareExRate_afterRemove_of_ne (p : Pool) {status other : BondStatus} (hne : status ≠ other)
    (shares : ℚ) (removed : ℤ) :
    (p.afterRemove status shares removed).shareExRate other = p.shareExRate other := by
  rw [shareExRate, Pool.afterRemove, shares_withPart, tokens_withPart, if_neg hne, if_neg hne]
  rfl

/-! ## Adding tokens -/

theorem shareExRate_afterAdd (hp : p.Sound supply) (hamount : 0 ≤ amount)
    (hrate : p.shareExRate status ≠ 0) (other : BondStatus) :
    (p.afterAdd status amount).shareExRate other = p.shareExRate other := by
  by_cases hother : status = other
  · subst hother
    have hpos : 0 < p.shareExRate status := lt_of_le_of_ne (hp.rate_nonneg status) hrate.symm
    have htokens : ((p.tokens status + amount : ℤ) : ℚ) =
        p.shareExRate status * (p.shares status + amount / p.shareExRate status) := by
      rw [mul_add, hp.rate_mul_shares, mul_div_cancel₀ _ hrate]
      push_cast
      rfl
    rw [shareExRate, Pool.afterAdd, shares_withPart, tokens_withPart, if_pos rfl, if_pos rfl,
      htokens]
    split_ifs with hzero
    · -- no shares afterwards means none before: the rate was one
      have hissued : (0 : ℚ) ≤ amount / p.shareExRate status :=
        div_nonneg (by exact_mod_cast hamount) hpos.le
      have hshares := hp.shares status
      rw [shareExRate, if_pos (by linarith)]
    · exact mul_div_cancel_right₀ _ hzero
  · rw [shareExRate, Pool.afterAdd, shares_withPart, tokens_withPart, if_neg hother, if_neg hother]
    rfl

theorem afterAdd (hp : p.Sound supply) (hamount : 0 ≤ amount) (hloose : amount ≤ p.looseTokens)
    (hrate : p.shareExRate status ≠ 0) : (p.afterAdd status amount).Sound supply where
  loose := by
    simp only [Pool.afterAdd, looseTokens_withPart]
    omega
  tokens other := by
    have hother := hp.tokens other
    simp only [Pool.afterAdd, tokens_withPart]
    split_ifs with hstatus
    · subst hstatus
      omega
    · exact hother
  total := by
    have htotal := hp.total
    rw [Pool.afterAdd, total_withPart]
    omega
  fits := hp.fits
  shares other := by
    simp only [Pool.afterAdd, shares_withPart]
    split_ifs
    · exact add_nonneg (hp.shares status)
        (div_nonneg (by exact_mod_cast hamount) (hp.rate_nonneg status))
    · exact hp.shares other
  backed other := by
    simp only [Pool.afterAdd, shares_withPart, tokens_withPart]
    split_ifs
    · intro hzero
      have hissued : (0 : ℚ) ≤ amount / p.shareExRate status :=
        div_nonneg (by exact_mod_cast hamount) (hp.rate_nonneg status)
      have hshares := hp.shares status
      have hnone : (amount : ℚ) / p.shareExRate status = 0 := by linarith
      rw [hp.backed status (by linarith)]
      rcases div_eq_zero_iff.mp hnone with hzero' | hzero'
      · simpa using hzero'
      · exact absurd hzero' hrate
    · exact hp.backed other

theorem addTokens_eq (hp : p.Sound supply) (hamount : 0 ≤ amount) (hloose : amount ≤ p.looseTokens)
    (hrate : p.shareExRate status ≠ 0) :
    p.addTokens status amount =
      .ok (p.afterAdd status amount, ⟨status, amount / p.shareExRate status⟩) := by
  have hle := hp.loose_add_tokens_le status
  have htokens := hp.tokens status
  have hfits := hp.fits
  have htokens' : int64 (p.tokens status + amount) = p.tokens status + amount := by
    rw [int64_eq_self] <;> omega
  have hloose' : int64 (p.looseTokens - amount) = p.looseTokens - amount := by
    rw [int64_eq_self] <;> omega
  have hneg : ¬ p.looseTokens - amount < 0 := by omega
  simp only [addTokens, quo, hrate, if_false, htokens', hloose', looseTokens_withPart, hneg]
  rfl

theorem addTokens_ok (hp : p.Sound supply) {p' : Pool} {issued : PoolShares} (hamount : 0 ≤ amount)
    (hfits : amount < 2 ^ 63) (h : p.addTokens status amount = .ok (p', issued)) :
    amount ≤ p.looseTokens ∧ p.shareExRate status ≠ 0 ∧ p' = p.afterAdd status amount ∧
      issued = ⟨status, amount / p.shareExRate status⟩ := by
  obtain ⟨hrate, -, hneg, -⟩ := addTokens_eq_ok h
  have hle := hp.loose_add_tokens_le status
  have htokens := hp.tokens status
  have hsupply := hp.fits
  have hloose := hp.loose
  rw [int64_eq_self (by omega) (by omega)] at hneg
  rw [hp.addTokens_eq hamount (by omega) hrate] at h
  cases h
  exact ⟨by omega, hrate, rfl, rfl⟩

end Sound

end Pool

/-! ## Validators -/

namespace PoolShares

theorem amountAs_eq_ok_of_rate {s : PoolShares} {p : Pool} {target : BondStatus} {x : ℚ}
    (hrate : p.shareExRate s.status ≠ 0) :
    s.amountAs p target = .ok x ↔ p.shareExRate target ≠ 0 ∧
      x = s.amount * p.shareExRate s.status / p.shareExRate target := by
  rw [amountAs_eq_ok]
  by_cases hsame : s.status = target
  · subst hsame
    rw [mul_div_cancel_right₀ _ hrate]
    simp [hrate, eq_comm]
  · simp only [hsame, false_and, false_or, ne_eq, not_false_eq_true, true_and, mul_div_assoc,
      eq_comm]

end PoolShares

namespace Validator

/-- The validator's shares are not negative, and it holds pool shares against delegator shares
only. -/
@[mk_iff] structure Sound (v : Validator) : Prop where
  amount : 0 ≤ v.poolShares.amount
  delegatorShares : 0 ≤ v.delegatorShares
  backed : v.delegatorShares = 0 → v.poolShares.amount = 0

/-- A sound validator with its sound pool, which has the validator's shares among its own. -/
@[mk_iff] structure SoundIn (supply : ℤ) (v : Validator) (p : Pool) : Prop extends Sound v where
  pool : p.Sound supply
  held : v.poolShares.amount ≤ p.shares v.status

instance (v : Validator) : Decidable v.Sound := decidable_of_iff' _ (sound_iff v)

instance (supply : ℤ) (v : Validator) (p : Pool) : Decidable (v.SoundIn supply p) :=
  decidable_of_iff' _ (soundIn_iff supply v p)

/-- The tokens that the validator's pool shares are worth. -/
def worth (v : Validator) (pool : Pool) : ℚ := pool.shareExRate v.status * v.poolShares.amount

/-- The pool shares that stand behind some of the delegator shares. -/
def sharesBehind (v : Validator) (delShares : ℚ) : ℚ :=
  v.poolShares.amount * delShares / v.delegatorShares

/-- The tokens that some of the delegator shares are worth. -/
def worthOf (v : Validator) (pool : Pool) (delShares : ℚ) : ℚ :=
  v.worth pool * delShares / v.delegatorShares

/-- Successive calls of `removeDelShares`, and the tokens they return together. -/
def removeDelSharesAll (v : Validator) (pool : Pool) : List ℚ → Outcome (Validator × Pool × ℤ)
  | [] => .ok (v, pool, 0)
  | delShares :: rest => do
      let (v, pool, created) ← v.removeDelShares pool delShares
      let (v, pool, others) ← v.removeDelSharesAll pool rest
      return (v, pool, created + others)

/-- The validator after a delegation of `amount` that issued `issued` delegator shares. -/
def afterDel (v : Validator) (pool : Pool) (amount : ℤ) (issued : ℚ) : Validator :=
  { v.withAmount (v.poolShares.amount + amount / pool.shareExRate v.status) with
    delegatorShares := v.delegatorShares + issued }

variable {v : Validator} {pool : Pool} {delShares : ℚ}

theorem delegatorShareExRate_eq_ok {exRate : ℚ} (hrate : pool.shareExRate v.status ≠ 0) :
    v.delegatorShareExRate pool = .ok exRate ↔
      if v.delegatorShares = 0 then exRate = 1
      else pool.shareExRate .bonded ≠ 0 ∧
        exRate = v.worth pool / pool.shareExRate .bonded / v.delegatorShares := by
  unfold delegatorShareExRate
  split_ifs with hzero
  · simp [eq_comm]
  · simp only [PoolShares.toBonded, bind_eq_ok, pure_eq_ok, quo_eq_ok, exists_exists_and_eq_and,
      PoolShares.amountAs_eq_ok_of_rate (s := v.poolShares) hrate, hzero, ne_eq, not_false_eq_true, true_and]
    constructor
    · rintro ⟨x, ⟨hbonded, rfl⟩, rfl⟩
      exact ⟨hbonded, by rw [worth, status, mul_comm (Pool.shareExRate _ _)]⟩
    · rintro ⟨hbonded, rfl⟩
      exact ⟨_, ⟨hbonded, rfl⟩, by rw [worth, status, mul_comm (Pool.shareExRate _ _)]⟩

/-- The conversions to bonded shares and back cancel. -/
theorem converted_eq_behind {exRate shares : ℚ} (hnone : v.delegatorShares = 0 → delShares = 0)
    (hexRate : v.delegatorShareExRate pool = .ok exRate)
    (hshares : PoolShares.amountAs ⟨.bonded, exRate * delShares⟩ pool v.status = .ok shares) :
    shares = v.sharesBehind delShares := by
  rw [PoolShares.amountAs_eq_ok] at hshares
  simp only [status] at hshares
  unfold delegatorShareExRate at hexRate
  split_ifs at hexRate with hzero
  · rw [sharesBehind, hzero, div_zero]
    rw [hnone hzero, mul_zero] at hshares
    rcases hshares with ⟨-, hshares⟩ | ⟨-, -, hshares⟩
    · exact hshares.symm
    · rw [← hshares, zero_mul]
  · simp only [bind_eq_ok, quo_eq_ok] at hexRate
    obtain ⟨bonded, hbonded, -, rfl⟩ := hexRate
    have hbonded := PoolShares.toBonded_eq_ok hbonded
    rw [PoolShares.amountAs_eq_ok] at hbonded
    rcases hbonded with ⟨hstatus, hamount⟩ | ⟨hstatus, hrate, hamount⟩ <;>
      rcases hshares with ⟨hstatus', hshares⟩ | ⟨hstatus', hrate', hshares⟩
    · rw [← hshares, ← hamount, sharesBehind]
      ring
    · exact absurd hstatus.symm hstatus'
    · exact absurd hstatus'.symm hstatus
    · rw [← hshares, ← hamount, sharesBehind]
      field_simp

theorem removeDelShares_behind {v' : Validator} {pool' : Pool} {created : ℤ}
    (hnone : v.delegatorShares = 0 → delShares = 0)
    (h : v.removeDelShares pool delShares = .ok (v', pool', created)) :
    pool.removeShares v.status (v.sharesBehind delShares) = .ok (pool', created) ∧
      v' = { v.withAmount (v.poolShares.amount - v.sharesBehind delShares) with
        delegatorShares := v.delegatorShares - delShares } := by
  simp only [removeDelShares, bind_eq_ok, pure_eq_ok, Prod.exists, Prod.mk.injEq] at h
  obtain ⟨exRate, hexRate, shares, hshares, pool₁, tokens, hremove, rfl, rfl, rfl⟩ := h
  rw [← converted_eq_behind hnone hexRate hshares]
  exact ⟨hremove, rfl⟩

/-- What `removeDelShares` returns before rounding, whatever the state: without delegator shares the
rate counts as one. -/
def returnedFor (v : Validator) (pool : Pool) (delShares : ℚ) : ℚ :=
  if v.delegatorShares = 0 then pool.bondedShareExRate * delShares else v.worthOf pool delShares

theorem removeDelShares_created {v' : Validator} {pool' : Pool} {created : ℤ}
    (h : v.removeDelShares pool delShares = .ok (v', pool', created)) :
    created = roundInt64 (v.returnedFor pool delShares) := by
  by_cases hzero : v.delegatorShares = 0
  · simp only [removeDelShares, delegatorShareExRate, hzero, if_true, bind_eq_ok, pure_eq_ok,
      Prod.exists, Prod.mk.injEq, Except.ok.injEq, exists_eq_left', one_mul] at h
    obtain ⟨shares, hshares, pool₁, tokens, hremove, -, -, rfl⟩ := h
    obtain ⟨hcreated, -, -⟩ := Pool.removeShares_eq_ok hremove
    rw [hcreated, returnedFor, if_pos hzero, Pool.bondedShareExRate]
    rw [PoolShares.amountAs_eq_ok] at hshares
    rcases hshares with ⟨hstatus, rfl⟩ | ⟨-, hrate, rfl⟩
    · rw [← hstatus]
    · rw [mul_comm (Pool.shareExRate _ _) (_ * _), mul_assoc, div_mul_cancel₀ _ hrate, mul_comm]
  · obtain ⟨hremove, -⟩ := removeDelShares_behind (fun h => absurd h hzero) h
    obtain ⟨hcreated, -, -⟩ := Pool.removeShares_eq_ok hremove
    rw [hcreated, returnedFor, if_neg hzero, worthOf, worth, sharesBehind]
    congr 1
    ring

namespace SoundIn

variable {supply : ℤ} {v v' : Validator} {pool pool' : Pool}

variable {delShares : ℚ} {created amount : ℤ} {issued part : ℚ}

theorem behind_range (hv : v.SoundIn supply pool) (hnonneg : 0 ≤ delShares)
    (hle : delShares ≤ v.delegatorShares) :
    0 ≤ v.sharesBehind delShares ∧ v.sharesBehind delShares ≤ v.poolShares.amount := by
  constructor
  · exact div_nonneg (mul_nonneg hv.amount hnonneg) hv.delegatorShares
  · exact div_le_of_le_mul₀ hv.delegatorShares hv.amount
      (mul_le_mul_of_nonneg_left hle hv.amount)

theorem removeDelShares_ok (hv : v.SoundIn supply pool) (hnonneg : 0 ≤ delShares)
    (hle : delShares ≤ v.delegatorShares)
    (h : v.removeDelShares pool delShares = .ok (v', pool', created)) :
    created = evaluateBig (pool.shareExRate v.status * v.sharesBehind delShares) ∧
      pool' = pool.afterRemove v.status (v.sharesBehind delShares) created ∧
      v' = { v.withAmount (v.poolShares.amount - v.sharesBehind delShares) with
        delegatorShares := v.delegatorShares - delShares } := by
  obtain ⟨hremove, hv'⟩ := removeDelShares_behind (fun hzero => by linarith) h
  obtain ⟨hbehind, hamount⟩ := hv.behind_range hnonneg hle
  rw [hv.pool.removeShares_eq hbehind (hamount.trans hv.held)] at hremove
  cases hremove
  exact ⟨rfl, rfl, hv'⟩

theorem removeDelShares (hv : v.SoundIn supply pool) (hnonneg : 0 ≤ delShares)
    (hle : delShares ≤ v.delegatorShares)
    (h : v.removeDelShares pool delShares = .ok (v', pool', created)) :
    v'.Sound ∧ pool'.Sound supply := by
  obtain ⟨hcreated, hpool', hv'⟩ := hv.removeDelShares_ok hnonneg hle h
  obtain ⟨hbehind, hamount⟩ := hv.behind_range hnonneg hle
  constructor
  · rw [hv']
    refine ⟨sub_nonneg.mpr hamount, sub_nonneg.mpr hle, fun hall => ?_⟩
    have hall' : v.delegatorShares = delShares := sub_eq_zero.mp hall
    simp only [withAmount]
    by_cases hzero : v.delegatorShares = 0
    · rw [sharesBehind, hv.backed hzero]
      simp
    · rw [sharesBehind, ← hall', mul_div_cancel_right₀ _ hzero, sub_self]
  · rw [hpool', hcreated]
    exact hv.pool.afterRemove hbehind (hamount.trans hv.held)

theorem removePoolShares (hv : v.SoundIn supply pool) {shares : ℚ} {removed : ℤ}
    (hnonneg : 0 ≤ shares) (hle : shares ≤ v.poolShares.amount)
    (h : v.removePoolShares pool shares = .ok (v', pool', removed)) :
    v'.Sound ∧ pool'.Sound supply := by
  simp only [Validator.removePoolShares, hv.pool.removeShares_eq hnonneg (hle.trans hv.held),
    bind_eq_ok, pure_eq_ok, Prod.exists, Prod.mk.injEq, Except.ok.injEq] at h
  obtain ⟨pool₁, tokens, ⟨rfl, rfl⟩, rfl, rfl, rfl⟩ := h
  refine ⟨⟨sub_nonneg.mpr hle, hv.delegatorShares, fun hzero => ?_⟩,
    hv.pool.afterRemove hnonneg (hle.trans hv.held)⟩
  have hamount := hv.backed hzero
  simp only [withAmount]
  linarith

/-- A change of status: the rounded value of the validator moves from its pool to the other. -/
theorem updateStatus_ok (hv : v.SoundIn supply pool) {newStatus : BondStatus}
    (hne : v.status ≠ newStatus) (h : v.updateStatus pool newStatus = .ok (v', pool')) :
    let removed := evaluateBig (pool.shareExRate v.status * v.poolShares.amount)
    let pool₁ := pool.afterRemove v.status v.poolShares.amount removed
    pool₁.Sound supply ∧ 0 ≤ removed ∧ removed ≤ pool₁.looseTokens ∧
      pool₁.shareExRate newStatus ≠ 0 ∧ pool' = pool₁.afterAdd newStatus removed ∧
      v' = { v with poolShares := ⟨newStatus, removed / pool₁.shareExRate newStatus⟩ } := by
  obtain ⟨hremoved, htokens⟩ := hv.pool.removed_range hv.amount hv.held
  have hpool := hv.pool.afterRemove hv.amount hv.held
  have hle := hv.pool.loose_add_tokens_le v.status
  have hloose := hv.pool.loose
  have hfits := hv.pool.fits
  rw [Validator.updateStatus, if_neg hne, hv.pool.removeShares_eq hv.amount hv.held] at h
  simp only [bind_eq_ok, pure_eq_ok, Prod.exists, Prod.mk.injEq, Except.ok.injEq] at h
  obtain ⟨pool₁, tokens, ⟨rfl, rfl⟩, pool₂, issued, hadd, rfl, rfl⟩ := h
  obtain ⟨henough, hrate, rfl, rfl⟩ := hpool.addTokens_ok hremoved (by omega) hadd
  exact ⟨hpool, hremoved, henough, hrate, rfl, rfl⟩

theorem updateStatus (hv : v.SoundIn supply pool) {newStatus : BondStatus}
    (h : v.updateStatus pool newStatus = .ok (v', pool')) : v'.Sound ∧ pool'.Sound supply := by
  have hempty : v.poolShares.amount = 0 → v'.poolShares.amount = 0 := fun hzero =>
    updateStatus_zero hzero h
  by_cases hsame : v.status = newStatus
  · rw [Validator.updateStatus, if_pos hsame] at h
    cases h
    exact ⟨hv.toSound, hv.pool⟩
  · obtain ⟨hpool, hremoved, henough, hrate, rfl, rfl⟩ := hv.updateStatus_ok hsame h
    refine ⟨⟨?_, hv.delegatorShares, fun hzero => hempty (hv.backed hzero)⟩,
      hpool.afterAdd hremoved henough hrate⟩
    exact div_nonneg (by exact_mod_cast hremoved) (hpool.rate_nonneg newStatus)

theorem addTokensFromDel_ok (hv : v.SoundIn supply pool) (hamount : 0 ≤ amount)
    (hfits : amount < 2 ^ 63) (h : v.addTokensFromDel pool amount = .ok (v', pool', issued)) :
    amount ≤ pool.looseTokens ∧ pool.shareExRate v.status ≠ 0 ∧ pool.shareExRate .bonded ≠ 0 ∧
      pool' = pool.afterAdd v.status amount ∧ v' = v.afterDel pool amount issued ∧
      ∃ exRate, v.delegatorShareExRate pool = .ok exRate ∧ exRate ≠ 0 ∧
        issued = amount / pool.shareExRate .bonded / exRate := by
  simp only [addTokensFromDel, PoolShares.toBonded, bind_eq_ok, pure_eq_ok, Prod.exists,
    Prod.mk.injEq, quo_eq_ok, exists_exists_and_eq_and] at h
  obtain ⟨exRate, hexRate, pool₁, shares, hadd, bonded, hbonded, issued', ⟨hne, rfl⟩, rfl, rfl, rfl⟩ :=
    h
  obtain ⟨henough, hrate, rfl, rfl⟩ := hv.pool.addTokens_ok hamount hfits hadd
  have hsame := hv.pool.shareExRate_afterAdd hamount hrate
  rw [PoolShares.amountAs_eq_ok_of_rate (by simpa only [hsame] using hrate)] at hbonded
  simp only [hsame, div_mul_cancel₀ _ hrate] at hbonded
  obtain ⟨hb, rfl⟩ := hbonded
  exact ⟨henough, hrate, hb, rfl, rfl, exRate, hexRate, hne, rfl⟩

theorem addTokensFromDel (hv : v.SoundIn supply pool) (hamount : 0 ≤ amount)
    (hfits : amount < 2 ^ 63) (h : v.addTokensFromDel pool amount = .ok (v', pool', issued)) :
    v'.Sound ∧ pool'.Sound supply := by
  obtain ⟨henough, hrate, hb, rfl, rfl, exRate, hexRate, hne, hissued⟩ :=
    hv.addTokensFromDel_ok hamount hfits h
  have hcast : (0 : ℚ) ≤ amount := by exact_mod_cast hamount
  have hshares : (0 : ℚ) ≤ amount / pool.shareExRate v.status :=
    div_nonneg hcast (hv.pool.rate_nonneg _)
  have hexpos : 0 ≤ exRate := by
    rw [delegatorShareExRate_eq_ok hrate] at hexRate
    split_ifs at hexRate
    · rw [hexRate]
      exact zero_le_one
    · rw [hexRate.2]
      exact div_nonneg (div_nonneg (mul_nonneg (hv.pool.rate_nonneg _) hv.amount)
        (hv.pool.rate_nonneg _)) hv.delegatorShares
  have hpos : 0 ≤ issued := by
    rw [hissued]
    exact div_nonneg (div_nonneg hcast (hv.pool.rate_nonneg _)) hexpos
  refine ⟨⟨add_nonneg hv.amount hshares, add_nonneg hv.delegatorShares hpos, ?_⟩,
    hv.pool.afterAdd hamount henough hrate⟩
  intro hzero
  have hzero' : v.delegatorShares + issued = 0 := hzero
  have hdel := hv.delegatorShares
  have hnone : issued = 0 := by linarith
  rw [hissued, div_eq_zero_iff, div_eq_zero_iff] at hnone
  simp only [hb, hne, or_false] at hnone
  simp only [afterDel, withAmount, hnone, zero_div, add_zero]
  exact hv.backed (by linarith)

/-! ## Delegating and withdrawing at once -/

/-- A delegation leaves the rate between delegator shares and bonded shares as it is. -/
theorem delegatorShareExRate_afterDel (hv : v.SoundIn supply pool) (hamount : 0 < amount)
    (hfits : amount < 2 ^ 63) (h : v.addTokensFromDel pool amount = .ok (v', pool', issued)) :
    v'.delegatorShareExRate pool' = v.delegatorShareExRate pool := by
  obtain ⟨henough, hrate, hb, rfl, rfl, exRate, hexRate, hne, hissued⟩ :=
    hv.addTokensFromDel_ok hamount.le hfits h
  have hsound := (hv.addTokensFromDel hamount.le hfits h).1
  have hsame := hv.pool.shareExRate_afterAdd hamount.le hrate
  -- what the validator holds, in bonded shares, is the rate times its delegator shares
  have hworth : v.worth pool = exRate * pool.shareExRate .bonded * v.delegatorShares := by
    rw [delegatorShareExRate_eq_ok hrate] at hexRate
    split_ifs at hexRate with hzero
    · rw [hzero, worth, hv.backed hzero]
      ring
    · obtain ⟨-, rfl⟩ := hexRate
      field_simp
  have hcast : (amount : ℚ) = exRate * pool.shareExRate .bonded * issued := by
    rw [hissued]
    field_simp
  have hnonzero : (v.afterDel pool amount issued).delegatorShares ≠ 0 := by
    intro hzero
    have hnone : (v.afterDel pool amount issued).poolShares.amount = 0 := hsound.backed hzero
    have hshares : (0 : ℚ) < amount / pool.shareExRate v.status :=
      div_pos (by exact_mod_cast hamount) (lt_of_le_of_ne (hv.pool.rate_nonneg _) hrate.symm)
    have hold := hv.amount
    simp only [afterDel, withAmount] at hnone
    linarith
  rw [hexRate, delegatorShareExRate_eq_ok (by rwa [hsame]), if_neg hnonzero, hsame]
  refine ⟨hb, ?_⟩
  have hworth' : (v.afterDel pool amount issued).worth (pool.afterAdd v.status amount) =
      exRate * pool.shareExRate .bonded * (v.delegatorShares + issued) := by
    have hstatus : (v.afterDel pool amount issued).status = v.status := rfl
    rw [mul_add, ← hworth, ← hcast, worth, worth, hsame, hstatus]
    simp only [afterDel, withAmount]
    rw [mul_add, mul_div_cancel₀ _ hrate]
  rw [hworth']
  have hnonzero' : v.delegatorShares + issued ≠ 0 := hnonzero
  simp only [afterDel]
  field_simp

/-- The delegator shares just issued give back the tokens they were issued for. -/
theorem removeDelShares_afterDel (hv : v.SoundIn supply pool) (hamount : 0 < amount)
    (hfits : amount < 2 ^ 63) (h : v.addTokensFromDel pool amount = .ok (v', pool', issued)) :
    v'.removeDelShares pool' issued = .ok (v, pool, amount) := by
  have hexRate' := hv.delegatorShareExRate_afterDel hamount hfits h
  have hpool' := (hv.addTokensFromDel hamount.le hfits h).2
  obtain ⟨henough, hrate, hb, rfl, rfl, exRate, hexRate, hne, hissued⟩ :=
    hv.addTokensFromDel_ok hamount.le hfits h
  have hsame := hv.pool.shareExRate_afterAdd hamount.le hrate
  have hshares : (0 : ℚ) ≤ amount / pool.shareExRate v.status :=
    div_nonneg (by exact_mod_cast hamount.le) (hv.pool.rate_nonneg _)
  have hheld : (amount : ℚ) / pool.shareExRate v.status ≤
      (pool.afterAdd v.status amount).shares v.status := by
    rw [Pool.afterAdd, Pool.shares_withPart, if_pos rfl]
    exact le_add_of_nonneg_left (hv.pool.shares v.status)
  have hstatus : (v.afterDel pool amount issued).status = v.status := rfl
  have hconvert : PoolShares.amountAs ⟨.bonded, exRate * issued⟩ (pool.afterAdd v.status amount)
      v.status = .ok (amount / pool.shareExRate v.status) := by
    rw [PoolShares.amountAs_eq_ok_of_rate (by rwa [hsame])]
    simp only [hsame]
    refine ⟨hrate, ?_⟩
    rw [hissued]
    field_simp
  have hremove := hpool'.removeShares_eq hshares hheld
  rw [hsame, mul_div_cancel₀ _ hrate, evaluateBig_intCast, Pool.afterRemove_afterAdd] at hremove
  simp only [Validator.removeDelShares, hexRate', hexRate, hstatus, hconvert, hremove, bind,
    Except.bind, pure, Except.pure, Except.ok.injEq, Prod.mk.injEq, and_true]
  simp [afterDel, withAmount, status]

/-! ## Withdrawing in parts -/

theorem worthOf_afterRemove (hv : v.SoundIn supply pool) (hpart : 0 ≤ part)
    (hle : part ≤ v.delegatorShares) (h : v.removeDelShares pool part = .ok (v', pool', created))
    (hrest : part ≠ v.delegatorShares) :
    v'.worthOf pool' (delShares - part) =
      pool'.shareExRate v.status * v.sharesBehind (delShares - part) := by
  obtain ⟨-, -, rfl⟩ := hv.removeDelShares_ok hpart hle h
  have hleft : v.delegatorShares - part ≠ 0 := sub_ne_zero.mpr hrest.symm
  have hall : v.delegatorShares ≠ 0 := by
    intro hzero
    rw [hzero] at hle hrest
    exact hrest (le_antisymm hle hpart)
  simp only [worthOf, worth, withAmount, status, sharesBehind]
  field_simp

theorem behind_rest_range (hv : v.SoundIn supply pool) (hpart : 0 ≤ part) (hdel : part ≤ delShares)
    (hle : delShares ≤ v.delegatorShares) :
    0 ≤ v.sharesBehind (delShares - part) ∧
      v.sharesBehind (delShares - part) ≤ pool.shares v.status - v.sharesBehind part := by
  have hmore : v.sharesBehind part + v.sharesBehind (delShares - part) =
      v.sharesBehind delShares := by
    simp only [sharesBehind]
    ring
  have hupper := (hv.behind_range (hpart.trans hdel) hle).2
  have hheld := hv.held
  refine ⟨(hv.behind_range (sub_nonneg.mpr hdel) (by linarith)).1, by linarith⟩

/-- One withdrawal gains at most half a token: rounding up takes from what is left behind, and
rounding down gives to it. -/
theorem removeDelShares_gain (hv : v.SoundIn supply pool) (hpart : 0 ≤ part)
    (hdel : part ≤ delShares) (hle : delShares ≤ v.delegatorShares)
    (h : v.removeDelShares pool part = .ok (v', pool', created)) :
    created + v'.worthOf pool' (delShares - part) ≤ v.worthOf pool delShares + 1 / 2 := by
  obtain ⟨hcreated, hpool', hv'⟩ := hv.removeDelShares_ok hpart (hdel.trans hle) h
  obtain ⟨hrest₀, hrest₁⟩ := hv.behind_rest_range hpart hdel hle
  have hhalf := (abs_le.mp (abs_evaluateBig_sub_le
    (pool.shareExRate v.status * v.sharesBehind part))).2
  rw [← hcreated] at hhalf
  have hworth : v.worthOf pool delShares = pool.shareExRate v.status * v.sharesBehind part +
      pool.shareExRate v.status * v.sharesBehind (delShares - part) := by
    simp only [worthOf, worth, sharesBehind]
    ring
  by_cases hall : part = v.delegatorShares
  · -- everything is withdrawn
    have hnothing : delShares - part = 0 := by linarith
    rw [hworth, hnothing]
    simp only [worthOf, sharesBehind, mul_zero, zero_div, add_zero] at hhalf ⊢
    linarith
  rw [hworth, hv.worthOf_afterRemove hpart (hdel.trans hle) h hall, hpool']
  by_cases hx : v.sharesBehind part = pool.shares v.status
  · -- no shares are left in the pool, so none stand behind the rest
    have hnothing : v.sharesBehind (delShares - part) = 0 := by linarith
    rw [hnothing, mul_zero, mul_zero]
    linarith
  have hleft : 0 < pool.shares v.status - v.sharesBehind part := by
    obtain ⟨-, hamount⟩ := hv.behind_range hpart (hdel.trans hle)
    exact sub_pos.mpr (lt_of_le_of_ne (hamount.trans hv.held) hx)
  -- `θ` is the part of the remaining shares that is the delegator's
  obtain ⟨θ, hθ⟩ : ∃ θ, v.sharesBehind (delShares - part) =
      θ * (pool.shares v.status - v.sharesBehind part) := ⟨_, (div_mul_cancel₀ _ hleft.ne').symm⟩
  rw [hθ] at hrest₀ hrest₁ ⊢
  have hθ₀ : 0 ≤ θ := nonneg_of_mul_nonneg_left hrest₀ hleft
  have hθ₁ : θ ≤ 1 := le_of_mul_le_mul_right (by linarith) hleft
  have hrate := hv.pool.shareExRate_afterRemove created hx
  have hnew : (pool.afterRemove v.status (v.sharesBehind part) created).shareExRate v.status *
      (θ * (pool.shares v.status - v.sharesBehind part)) =
      pool.shareExRate v.status * (θ * (pool.shares v.status - v.sharesBehind part)) +
        θ * (pool.shareExRate v.status * v.sharesBehind part - created) := by
    linear_combination θ * hrate
  rw [hnew]
  nlinarith

theorem of_moves (hv : v.SoundIn supply pool) (hsound : v'.Sound ∧ pool'.Sound supply)
    (hstatus : v'.status = v.status) (hmoves : v.MovesWith pool v' pool') :
    v'.SoundIn supply pool' where
  toSound := hsound.1
  pool := hsound.2
  held := by
    have hshares := hmoves v.status
    have hheld := hv.held
    rw [sharesIn, sharesIn, hstatus, if_pos rfl, if_pos rfl] at hshares
    rw [hstatus]
    linarith

/-- A withdrawal in parts gains at most half a token for each part. -/
theorem removeDelSharesAll_gain (hv : v.SoundIn supply pool) {parts : List ℚ}
    (hparts : ∀ part ∈ parts, 0 ≤ part) (hle : parts.sum ≤ v.delegatorShares)
    (h : v.removeDelSharesAll pool parts = .ok (v', pool', created)) :
    created ≤ v.worthOf pool parts.sum + parts.length / 2 := by
  induction parts generalizing v pool created with
  | nil =>
    cases h
    simp [worthOf]
  | cons part parts ih =>
    simp only [removeDelSharesAll, bind_eq_ok, pure_eq_ok, Prod.exists, Prod.mk.injEq] at h
    obtain ⟨v₁, pool₁, first, hfirst, v₂, pool₂, others, hothers, rfl, rfl, rfl⟩ := h
    have hpart : 0 ≤ part := hparts part (by simp)
    have hrest : 0 ≤ parts.sum := List.sum_nonneg fun other hother => hparts other (by simp [hother])
    rw [List.sum_cons] at hle ⊢
    obtain ⟨hv₁, hmoves⟩ := removeDelShares_eq_ok hfirst
    have hstatus : v₁.status = v.status := by
      rw [hv₁]
      rfl
    have hdel : v₁.delegatorShares = v.delegatorShares - part := by rw [hv₁]
    have hsound := hv.of_moves (hv.removeDelShares hpart (by linarith) hfirst) hstatus hmoves
    have hgain := hv.removeDelShares_gain hpart (by linarith) hle hfirst
    have hmore := ih hsound (fun other hother => hparts other (by simp [hother]))
      (by rw [hdel]; linarith) hothers
    rw [add_sub_cancel_left] at hgain
    push_cast [List.length_cons]
    linarith

end SoundIn

end Validator

end Tepleton.Stake
