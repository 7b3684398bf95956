import Tepleton.Stake.Types.Sound

/-!
# Conversions and the rates they divide by

Shares of one status are converted into shares of another by the two exchange rates.  The amount is
right in all nine cases, but `ToBonded` labels its result unbonded, so that its value is taken at the
wrong rate and it does not convert back (`converts_iff`).

All divisions of the share arithmetic are by exchange rates.  A rate is zero if the pool has shares but
no tokens (`shareExRate_ne_zero_iff`); each operation divides by the rates of certain pools, and on a
sound pool with arguments in range this is all that can go wrong.
-/

namespace Tepleton.Stake

open Lib

namespace PoolShares

variable {s : PoolShares} {p : Pool} {target : BondStatus}

/-- The conversion to a status. -/
def convertTo (s : PoolShares) (p : Pool) : BondStatus → Outcome PoolShares
  | .unbonded => s.toUnbonded p
  | .unbonding => s.toUnbonding p
  | .bonded => s.toBonded p

/-- The status that the conversion to `target` labels its result with. -/
def label : BondStatus → BondStatus
  | .unbonding => .unbonding
  | _ => .unbonded

theorem convertTo_eq (hrates : ∀ status, p.shareExRate status ≠ 0) (s : PoolShares)
    (target : BondStatus) : s.convertTo p target =
      .ok ⟨label target, s.amount * p.shareExRate s.status / p.shareExRate target⟩ := by
  have hamount : s.amountAs p target =
      .ok (s.amount * p.shareExRate s.status / p.shareExRate target) :=
    (amountAs_eq_ok_of_rate (hrates s.status)).mpr ⟨hrates target, rfl⟩
  cases target <;> simp only [convertTo, toUnbonded, toUnbonding, toBonded, hamount] <;> rfl

/-- The conversion has the status asked for, keeps the value and can be undone. -/
def Converts (s : PoolShares) (p : Pool) (target : BondStatus) : Prop :=
  ∃ s', s.convertTo p target = .ok s' ∧ s'.status = target ∧ s'.tokens p = s.tokens p ∧
    s'.convertTo p s.status = .ok s

/-- Conversions are right between unbonded and unbonding shares, and only there. -/
theorem converts_iff (hrates : ∀ status, p.shareExRate status ≠ 0) (s : PoolShares)
    (target : BondStatus) :
    s.Converts p target ↔ target ≠ .bonded ∧ s.status ≠ .bonded := by
  have hlabel : ∀ status, label status = status ↔ status ≠ .bonded := by
    intro status
    cases status <;> simp [label]
  unfold Converts
  simp only [convertTo_eq hrates, Except.ok.injEq, exists_eq_left', hlabel]
  constructor
  · rintro ⟨htarget, -, hback⟩
    exact ⟨htarget, (hlabel _).mp (congrArg status hback)⟩
  · rintro ⟨htarget, hstatus⟩
    have hsame := (hlabel target).mpr htarget
    refine ⟨htarget, ?_, ?_⟩
    · simp only [tokens, hsame]
      rw [mul_div_cancel₀ _ (hrates target), mul_comm]
    · simp only [hsame, (hlabel s.status).mpr hstatus]
      rw [div_mul_cancel₀ _ (hrates target), mul_div_cancel_right₀ _ (hrates s.status)]

namespace Example

/-- A token is worth one unbonded share, two unbonding shares or half a bonded share. -/
def pool : Pool :=
  { initialPool with
    unbondedTokens := 10, unbondedShares := 10, unbondingTokens := 10, unbondingShares := 20,
    bondedTokens := 10, bondedShares := 5 }

theorem pool_rates : ∀ status, pool.shareExRate status ≠ 0 := by decide +kernel

end Example

theorem converts_example : (⟨.unbonding, 4⟩ : PoolShares).Converts Example.pool .unbonded :=
  (converts_iff Example.pool_rates _ _).mpr ⟨by decide, by decide⟩

/-- Four unbonded shares are worth four tokens; converted to bonded ones they are worth two. -/
theorem toBonded_loses_value : (∀ status, Example.pool.shareExRate status ≠ 0) ∧
    (⟨.unbonded, 4⟩ : PoolShares).toBonded Example.pool = .ok ⟨.unbonded, 2⟩ ∧
    (⟨.unbonded, 4⟩ : PoolShares).tokens Example.pool = 4 ∧
    (⟨.unbonded, 2⟩ : PoolShares).tokens Example.pool = 2 := by
  refine ⟨Example.pool_rates, ?_, by decide +kernel, by decide +kernel⟩
  have hpasses : passes (fun s => decide (s = ⟨.unbonded, 2⟩))
      ((⟨.unbonded, 4⟩ : PoolShares).toBonded Example.pool) = true := by decide +kernel
  obtain ⟨s, hs, hsame⟩ := exists_of_passes hpasses
  rw [hs, of_decide_eq_true hsame]

end PoolShares

/-! ## Divisions -/

namespace Pool

/-- The pool of this status has tokens, or no shares that would need them. -/
def Backed (p : Pool) (status : BondStatus) : Prop := p.shares status = 0 ∨ p.tokens status ≠ 0

instance (p : Pool) (status : BondStatus) : Decidable (p.Backed status) :=
  inferInstanceAs (Decidable (_ ∨ _))

theorem shareExRate_ne_zero_iff {p : Pool} {status : BondStatus} :
    p.shareExRate status ≠ 0 ↔ p.Backed status := by
  unfold shareExRate Backed
  split_ifs with hshares
  · simp [hshares]
  · simp [hshares]

end Pool

/-- The call panics because of a division by zero. -/
def DividesByZero {α : Type} (x : Outcome α) : Prop := x = .error (.panic .divisionByZero)

/-- The call returns, or panics because of a division by zero. -/
def DividesOnly {α : Type} : Outcome α → Prop := Avoids (· ≠ .panic .divisionByZero)

theorem dividesOnly_quo (r r2 : ℚ) : DividesOnly (quo r r2) := by
  unfold quo
  split_ifs
  · exact not_not.mpr rfl
  · trivial

theorem DividesOnly.not_dividesByZero_iff {α : Type} {x : Outcome α} (hx : DividesOnly x) :
    ¬ DividesByZero x ↔ ∃ a, x = .ok a := by
  cases x with
  | error fault =>
    have hfault : fault = .panic .divisionByZero := not_not.mp hx
    simp [DividesByZero, hfault]
  | ok a => simp [DividesByZero]

theorem Pool.addTokens_rate_zero {p : Pool} {status : BondStatus} (amount : ℤ)
    (hrate : p.shareExRate status = 0) :
    p.addTokens status amount = .error (.panic .divisionByZero) := by
  rw [addTokens, quo, if_pos hrate]
  rfl

namespace PoolShares

theorem dividesOnly_amountAs (s : PoolShares) (p : Pool) (target : BondStatus) :
    DividesOnly (s.amountAs p target) := by
  unfold amountAs
  split_ifs
  · trivial
  · exact (dividesOnly_quo _ _).bind fun _ _ => trivial

theorem dividesOnly_toBonded (s : PoolShares) (p : Pool) : DividesOnly (s.toBonded p) :=
  (s.dividesOnly_amountAs p .bonded).bind fun _ _ => trivial

end PoolShares

theorem PoolShares.exists_amountAs {s : PoolShares} {p : Pool} {target : BondStatus} :
    (∃ x, s.amountAs p target = .ok x) ↔ s.status = target ∨ p.Backed target := by
  rw [← Pool.shareExRate_ne_zero_iff]
  unfold PoolShares.amountAs quo
  split_ifs with hsame hzero
  · simp [hsame]
  · simp [hsame, hzero, bind, Except.bind]
  · simp [hzero, bind, Except.bind, pure, Except.pure]

namespace Validator

theorem dividesOnly_delegatorShareExRate (v : Validator) (pool : Pool) :
    DividesOnly (v.delegatorShareExRate pool) := by
  unfold delegatorShareExRate
  split_ifs
  · trivial
  · exact (v.poolShares.dividesOnly_toBonded pool).bind fun _ _ => dividesOnly_quo _ _

theorem exists_delegatorShareExRate {v : Validator} {pool : Pool} :
    (∃ x, v.delegatorShareExRate pool = .ok x) ↔
      v.delegatorShares = 0 ∨ v.status = .bonded ∨ pool.Backed .bonded := by
  unfold delegatorShareExRate
  split_ifs with hzero
  · simp [hzero]
  · simp only [PoolShares.toBonded, bind_eq_ok, pure_eq_ok, quo_eq_ok]
    constructor
    · rintro ⟨_, _, ⟨x, hx, -⟩, -⟩
      exact .inr (PoolShares.exists_amountAs.mp ⟨x, hx⟩)
    · intro hbacked
      obtain ⟨x, hx⟩ := PoolShares.exists_amountAs.mpr (hbacked.resolve_left hzero)
      exact ⟨_, _, ⟨x, hx, rfl⟩, hzero, rfl⟩

theorem equivalentBondedShares_divides_iff (v : Validator) (pool : Pool) :
    ¬ DividesByZero (v.equivalentBondedShares pool) ↔ v.status = .bonded ∨ pool.Backed .bonded := by
  have hdivides : DividesOnly (v.equivalentBondedShares pool) :=
    (v.poolShares.dividesOnly_toBonded pool).bind fun _ _ => trivial
  rw [hdivides.not_dividesByZero_iff]
  simp only [equivalentBondedShares, PoolShares.toBonded, bind_eq_ok, pure_eq_ok]
  constructor
  · rintro ⟨_, _, ⟨x, hx, -⟩, -⟩
    exact PoolShares.exists_amountAs.mp ⟨x, hx⟩
  · intro hbacked
    obtain ⟨x, hx⟩ := PoolShares.exists_amountAs.mpr hbacked
    exact ⟨x, _, ⟨x, hx, rfl⟩, rfl⟩

section Sound

variable {supply : ℤ} {v : Validator} {pool : Pool}

/-- `RemoveDelShares` divides by the rates of the bonded pool and of the validator's own, unless they
are the same. -/
theorem SoundIn.removeDelShares_divides_iff (hv : v.SoundIn supply pool) {delShares : ℚ}
    (hpos : 0 < delShares) (hle : delShares ≤ v.delegatorShares) :
    ¬ DividesByZero (v.removeDelShares pool delShares) ↔
      v.status = .bonded ∨ pool.Backed .bonded ∧ pool.Backed v.status := by
  have hdel : v.delegatorShares ≠ 0 := (hpos.trans_le hle).ne'
  obtain ⟨hbehind, hamount⟩ := hv.behind_range hpos.le hle
  have hremove := hv.pool.removeShares_eq hbehind (hamount.trans hv.held)
  have hdivides : DividesOnly (v.removeDelShares pool delShares) := by
    refine (v.dividesOnly_delegatorShareExRate pool).bind fun exRate hexRate => ?_
    refine (PoolShares.dividesOnly_amountAs _ _ _).bind fun shares hshares => ?_
    rw [converted_eq_behind (fun hzero => absurd hzero hdel) hexRate hshares, hremove]
    trivial
  rw [hdivides.not_dividesByZero_iff]
  simp only [Validator.removeDelShares, bind_eq_ok, pure_eq_ok, Prod.exists]
  constructor
  · rintro ⟨_, _, _, exRate, hexRate, shares, hshares, -⟩
    have hbonded := (exists_delegatorShareExRate.mp ⟨_, hexRate⟩).resolve_left hdel
    have hown := PoolShares.exists_amountAs.mp ⟨_, hshares⟩
    by_cases hstatus : v.status = .bonded
    · exact .inl hstatus
    · exact .inr ⟨hbonded.resolve_left hstatus, hown.resolve_left fun heq => hstatus heq.symm⟩
  · intro hbacked
    obtain ⟨exRate, hexRate⟩ := exists_delegatorShareExRate.mpr
      (.inr (hbacked.imp_right fun h => h.1) : v.delegatorShares = 0 ∨ _)
    obtain ⟨shares, hshares⟩ : ∃ shares,
        PoolShares.amountAs ⟨.bonded, exRate * delShares⟩ pool v.status = .ok shares :=
      PoolShares.exists_amountAs.mpr (hbacked.imp Eq.symm fun h => h.2)
    rw [← converted_eq_behind (fun hzero => absurd hzero hdel) hexRate hshares] at hremove
    exact ⟨_, _, _, exRate, hexRate, shares, hshares, _, _, hremove, rfl⟩

/-- `UpdateStatus` divides by the rate of the pool that the shares go to. -/
theorem SoundIn.updateStatus_divides_iff (hv : v.SoundIn supply pool) (status : BondStatus) :
    ¬ DividesByZero (v.updateStatus pool status) ↔ v.status = status ∨ pool.Backed status := by
  by_cases hsame : v.status = status
  · simp [Validator.updateStatus, hsame, DividesByZero]
  · obtain ⟨hremoved, htokens⟩ := hv.pool.removed_range hv.amount hv.held
    have hpool := hv.pool.afterRemove hv.amount hv.held
    have hremove := hv.pool.removeShares_eq hv.amount hv.held
    have hrate := Pool.Sound.shareExRate_afterRemove_of_ne pool hsame v.poolShares.amount
      (evaluateBig (pool.shareExRate v.status * v.poolShares.amount))
    simp only [Validator.updateStatus, hremove, bind, Except.bind, hsame, false_or,
      ← Pool.shareExRate_ne_zero_iff]
    by_cases hzero : pool.shareExRate status = 0
    · rw [Pool.addTokens_rate_zero _ (hrate.trans hzero)]
      simp [DividesByZero, hzero]
    · have hloose := hv.pool.loose
      have henough : evaluateBig (pool.shareExRate v.status * v.poolShares.amount) ≤
          (pool.afterRemove v.status v.poolShares.amount
            (evaluateBig (pool.shareExRate v.status * v.poolShares.amount))).looseTokens := by
        rw [Pool.afterRemove, Pool.looseTokens_withPart]
        omega
      rw [hpool.addTokens_eq hremoved henough (hrate.trans_ne hzero)]
      simp [DividesByZero, hzero, pure, Except.pure]

/-- `AddTokensFromDel` divides by the rates of the bonded pool, of the validator's own pool and of the
validator. -/
theorem SoundIn.addTokensFromDel_divides_iff (hv : v.SoundIn supply pool) {amount : ℤ}
    (hpos : 0 < amount) (hle : amount ≤ pool.looseTokens) :
    ¬ DividesByZero (v.addTokensFromDel pool amount) ↔
      pool.Backed v.status ∧ pool.Backed .bonded ∧
        (v.delegatorShares = 0 ∨ v.poolShares.amount ≠ 0) := by
  have hfits := hv.pool.fits
  have hsupply := hv.pool.loose_add_tokens_le .bonded
  have htokens := hv.pool.tokens .bonded
  have hdivides : DividesOnly (v.addTokensFromDel pool amount) := by
    refine (v.dividesOnly_delegatorShareExRate pool).bind fun exRate _ => ?_
    have hadd : DividesOnly (pool.addTokens v.status amount) := by
      by_cases hzero : pool.shareExRate v.status = 0
      · rw [Pool.addTokens_rate_zero _ hzero]
        exact not_not.mpr rfl
      · rw [hv.pool.addTokens_eq hpos.le hle hzero]
        trivial
    refine hadd.bind fun _ _ => (PoolShares.dividesOnly_toBonded _ _).bind fun _ _ => ?_
    exact (dividesOnly_quo _ _).bind fun _ _ => trivial
  rw [hdivides.not_dividesByZero_iff, ← Pool.shareExRate_ne_zero_iff, ← Pool.shareExRate_ne_zero_iff]
  constructor
  · rintro ⟨⟨v', pool', issued⟩, h⟩
    obtain ⟨-, hrate, hbonded, -, -, exRate, hexRate, hne, -⟩ :=
      hv.addTokensFromDel_ok hpos.le (by omega) h
    refine ⟨hrate, hbonded, ?_⟩
    rw [delegatorShareExRate_eq_ok hrate] at hexRate
    by_contra hnot
    push Not at hnot
    rw [if_neg hnot.1] at hexRate
    rw [hexRate.2, worth, hnot.2] at hne
    simp at hne
  · rintro ⟨hrate, hbonded, hshares⟩
    obtain ⟨exRate, hexRate⟩ := exists_delegatorShareExRate.mpr
      (.inr (.inr (Pool.shareExRate_ne_zero_iff.mp hbonded)) : v.delegatorShares = 0 ∨ _)
    have hne : exRate ≠ 0 := by
      have hvalue := (delegatorShareExRate_eq_ok hrate).mp hexRate
      split_ifs at hvalue with hzero
      · rw [hvalue]
        exact one_ne_zero
      · rw [hvalue.2]
        exact div_ne_zero (div_ne_zero (mul_ne_zero hrate (hshares.resolve_left hzero)) hbonded) hzero
    have hsame := hv.pool.shareExRate_afterAdd hpos.le hrate .bonded
    obtain ⟨x, hx⟩ : ∃ x, PoolShares.amountAs ⟨v.status, amount / pool.shareExRate v.status⟩
        (pool.afterAdd v.status amount) .bonded = .ok x :=
      PoolShares.exists_amountAs.mpr (.inr (Pool.shareExRate_ne_zero_iff.mp (hsame.trans_ne hbonded)))
    have hquo : quo x exRate = .ok (x / exRate) := quo_eq_ok.mpr ⟨hne, rfl⟩
    simp only [Validator.addTokensFromDel, PoolShares.toBonded, hexRate,
      hv.pool.addTokens_eq hpos.le hle hrate, hx, hquo, bind, Except.bind, pure, Except.pure]
    exact ⟨_, rfl⟩

end Sound

end Validator

end Tepleton.Stake
