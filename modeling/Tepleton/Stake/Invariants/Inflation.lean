import Tepleton.Stake.Keeper.Inflation

/-!
# The inflation rate stays in its band

`NextInflation` moves the rate by an hour's share of a yearly change that depends on how far the bonded
ratio is from the goal, cuts it to the band of the parameters and rounds it to a multiple of
`1 / precision`.  Between two calls the token counts may change in any way.

For parameters whose band has its ends on this grid one call is a `drift` (`nextInflation_eq`), which
gives everything there is to say about it (`Adjusts`); `inflation_in_band` is the induction over a run,
for the default parameters and the initial rate.
-/

namespace Tepleton.Stake

open Lib

/-! ## Runs -/

/-- What happens to the pool: the hour's provisions, or any change of the token counts. -/
inductive PoolEvent
  | provisions
  | recount (looseTokens unbondedTokens unbondingTokens bondedTokens : ℤ)

/-- One event; the caller of `ProcessProvisions` stores the pool it returns. -/
def poolStep (s : Store) : PoolEvent → Outcome Store
  | .provisions => do
      let pool ← s.processProvisions
      return { s with pool }
  | .recount looseTokens unbondedTokens unbondingTokens bondedTokens =>
    .ok { s with pool := { s.pool with
      looseTokens, unbondedTokens, unbondingTokens, bondedTokens } }

/-- Token counts that are not negative and whose sum is below `2 ^ 62`. -/
structure Pool.Counted (p : Pool) : Prop where
  looseTokens : 0 ≤ p.looseTokens
  unbondedTokens : 0 ≤ p.unbondedTokens
  unbondingTokens : 0 ≤ p.unbondingTokens
  bondedTokens : 0 ≤ p.bondedTokens
  sum : p.looseTokens + p.unbondedTokens + p.unbondingTokens + p.bondedTokens < 2 ^ 62

instance (p : Pool) : Decidable p.Counted :=
  decidable_of_iff (0 ≤ p.looseTokens ∧ 0 ≤ p.unbondedTokens ∧ 0 ≤ p.unbondingTokens ∧
      0 ≤ p.bondedTokens ∧
      p.looseTokens + p.unbondedTokens + p.unbondingTokens + p.bondedTokens < 2 ^ 62)
    ⟨fun ⟨h₁, h₂, h₃, h₄, h₅⟩ => ⟨h₁, h₂, h₃, h₄, h₅⟩,
      fun ⟨h₁, h₂, h₃, h₄, h₅⟩ => ⟨h₁, h₂, h₃, h₄, h₅⟩⟩

/-- Provisions are processed on sound token counts only; a recount is free. -/
def Accountable (s : Store) : PoolEvent → Prop
  | .provisions => s.pool.Counted
  | .recount _ _ _ _ => True

instance (s : Store) (event : PoolEvent) : Decidable (Accountable s event) :=
  match event with
  | .provisions => inferInstanceAs (Decidable s.pool.Counted)
  | .recount _ _ _ _ => inferInstanceAs (Decidable True)

/-- What the hour's provisions do to a pool. -/
structure Adjusts (params : Params) (p p' : Pool) : Prop where
  rises : p.bondedRatio < params.goalBonded → p.inflation ≤ p'.inflation
  falls : params.goalBonded < p.bondedRatio → p'.inflation ≤ p.inflation
  bounded : |p'.inflation - p.inflation| ≤
    params.inflationRateChange / 8766 * max 1 (1 / params.goalBonded - 1) + 1 / (2 * precision)
  frame : p' = { p with
    inflation := p'.inflation
    looseTokens := p.looseTokens + nearestEven (p'.inflation * p.tokenSupply / 8766) }

/-! ## Parameters with a band on the grid -/

/-- The band runs from `low` to `high` units of the precision. -/
structure Params.Banded (params : Params) (low high : ℤ) : Prop where
  inflationMin : params.inflationMin = low / precision
  inflationMax : params.inflationMax = high / precision
  low_nonneg : 0 ≤ low
  low_le_high : low ≤ high
  high_le_one : high ≤ precision
  goalBonded_pos : 0 < params.goalBonded
  inflationRateChange_nonneg : 0 ≤ params.inflationRateChange

theorem defaultParams_banded : defaultParams.Banded 7000000000 20000000000 where
  inflationMin := by norm_num [defaultParams, precision]
  inflationMax := by norm_num [defaultParams, precision]
  low_nonneg := by decide
  low_le_high := by decide
  high_le_one := by decide
  goalBonded_pos := by norm_num [defaultParams]
  inflationRateChange_nonneg := by norm_num [defaultParams]

theorem precision_pos : (0 : ℚ) < precision := by norm_num [precision]

/-- The hour's change of the rate before it is cut and rounded. -/
def hourlyChange (params : Params) (p : Pool) : ℚ :=
  (1 - p.bondedRatio / params.goalBonded) * params.inflationRateChange / hrsPerYr

section

variable {s : Store} {p : Pool} {low high k : ℤ}

theorem Pool.Counted.tokenSupply_eq (hp : p.Counted) :
    p.tokenSupply = p.looseTokens + p.unbondedTokens + p.unbondingTokens + p.bondedTokens := by
  obtain ⟨hloose, hunbonded, hunbonding, hbonded, hsum⟩ := hp
  rw [tokenSupply, int64_eq_self] <;> omega

theorem Pool.Counted.bondedRatio_nonneg (hp : p.Counted) : 0 ≤ p.bondedRatio := by
  have hbonded : (0 : ℚ) ≤ p.bondedTokens := by exact_mod_cast hp.bondedTokens
  rw [bondedRatio]
  split_ifs with hsupply
  · have hpos : (0 : ℚ) < p.tokenSupply := by exact_mod_cast hsupply
    positivity
  · exact le_rfl

theorem Pool.Counted.bondedRatio_le_one (hp : p.Counted) : p.bondedRatio ≤ 1 := by
  rw [bondedRatio]
  split_ifs with hsupply
  · have hpos : (0 : ℚ) < p.tokenSupply := by exact_mod_cast hsupply
    have hle : p.bondedTokens ≤ p.tokenSupply := by
      have hloose := hp.looseTokens
      have hunbonded := hp.unbondedTokens
      have hunbonding := hp.unbondingTokens
      rw [hp.tokenSupply_eq]
      omega
    rw [div_le_one hpos]
    exact_mod_cast hle
  · norm_num

variable {params : Params}

theorem abs_hourlyChange_le (hparams : params.Banded low high) (hp : p.Counted) :
    |hourlyChange params p| ≤
      params.inflationRateChange / 8766 * max 1 (1 / params.goalBonded - 1) := by
  have hgoal := hparams.goalBonded_pos
  have hrate : 0 ≤ params.inflationRateChange / 8766 :=
    div_nonneg hparams.inflationRateChange_nonneg (by norm_num)
  have hlow : 0 ≤ p.bondedRatio / params.goalBonded :=
    div_nonneg hp.bondedRatio_nonneg hgoal.le
  have hhigh : p.bondedRatio / params.goalBonded ≤ 1 / params.goalBonded :=
    div_le_div_of_nonneg_right hp.bondedRatio_le_one hgoal.le
  have hfactor : |1 - p.bondedRatio / params.goalBonded| ≤ max 1 (1 / params.goalBonded - 1) := by
    rw [abs_le]
    have hone := le_max_left 1 (1 / params.goalBonded - 1)
    have hall := le_max_right 1 (1 / params.goalBonded - 1)
    constructor <;> linarith
  calc |hourlyChange params p|
      = params.inflationRateChange / 8766 * |1 - p.bondedRatio / params.goalBonded| := by
        rw [hourlyChange, hrsPerYr, mul_div_assoc, abs_mul, abs_of_nonneg hrate, mul_comm]
    _ ≤ _ := mul_le_mul_of_nonneg_left hfactor hrate

theorem hourlyChange_nonneg (hparams : params.Banded low high)
    (hbelow : p.bondedRatio < params.goalBonded) : 0 ≤ hourlyChange params p := by
  have hgoal := hparams.goalBonded_pos
  have hfactor : 0 ≤ 1 - p.bondedRatio / params.goalBonded := by
    rw [sub_nonneg, div_le_one hgoal]
    exact hbelow.le
  exact div_nonneg (mul_nonneg hfactor hparams.inflationRateChange_nonneg) (by norm_num [hrsPerYr])

theorem hourlyChange_nonpos (hparams : params.Banded low high)
    (habove : params.goalBonded < p.bondedRatio) : hourlyChange params p ≤ 0 := by
  have hgoal := hparams.goalBonded_pos
  have hfactor : 1 - p.bondedRatio / params.goalBonded ≤ 0 := by
    rw [sub_nonpos, one_le_div hgoal]
    exact habove.le
  exact div_nonpos_of_nonpos_of_nonneg
    (mul_nonpos_of_nonpos_of_nonneg hfactor hparams.inflationRateChange_nonneg)
    (by norm_num [hrsPerYr])

/-! ## One call -/

theorem cut_eq_max_min {lo hi : ℚ} (h : lo ≤ hi) (x : ℚ) :
    (if (if hi < x then hi else x) < lo then lo else if hi < x then hi else x) =
      max lo (min hi x) := by
  by_cases hhigh : hi < x
  · rw [if_pos hhigh, if_neg h.not_gt, min_eq_left hhigh.le, max_eq_right h]
  · rw [if_neg hhigh, min_eq_right (not_lt.mp hhigh)]
    split_ifs with hlow
    · rw [max_eq_left hlow.le]
    · rw [max_eq_right (not_lt.mp hlow)]

/-- `NextInflation` is one `drift` of the rate. -/
theorem nextInflation_eq (hparams : s.params.Banded low high)
    (hk : s.pool.inflation = k / precision) :
    s.nextInflation =
      .ok (drift precision low high k (hourlyChange s.params s.pool) / precision) := by
  have hscale := precision_pos
  have hends : (low : ℚ) / precision ≤ high / precision := by
    rw [div_le_div_iff_of_pos_right hscale]
    exact_mod_cast hparams.low_le_high
  have hint : int64 (drift precision low high k (hourlyChange s.params s.pool)) =
      drift precision low high k (hourlyChange s.params s.pool) := by
    have hlow : low ≤ drift precision low high k (hourlyChange s.params s.pool) :=
      low_le_drift hscale
    have hhigh : drift precision low high k (hourlyChange s.params s.pool) ≤ high :=
      drift_le_high hscale hparams.low_le_high
    have hnonneg := hparams.low_nonneg
    have hone := hparams.high_le_one
    unfold precision at hone
    exact int64_eq_self (by omega) (by omega)
  have hgoal : quo s.pool.bondedRatio s.params.goalBonded =
      .ok (s.pool.bondedRatio / s.params.goalBonded) :=
    quo_eq_ok.mpr ⟨hparams.goalBonded_pos.ne', rfl⟩
  have hyear : ∀ x : ℚ, quo x hrsPerYr = .ok (x / hrsPerYr) :=
    fun x => quo_eq_ok.mpr ⟨by norm_num [hrsPerYr], rfl⟩
  rw [Store.nextInflation, hgoal]
  simp only [bind, Except.bind, hyear]
  rw [hparams.inflationMin, hparams.inflationMax, hk, cut_eq_max_min hends, round, roundInt64,
    evaluateBig_eq_nearestEven]
  change quo (int64 (drift precision low high k (hourlyChange s.params s.pool)) : ℤ) _ = _
  rw [hint]
  exact quo_eq_ok.mpr ⟨hscale.ne', rfl⟩

/-- The hour's provisions fit, so the loose tokens grow by them. -/
theorem processProvisions_eq {inflation : ℚ} (hnext : s.nextInflation = .ok inflation)
    (hcounted : s.pool.Counted) (hnonneg : 0 ≤ inflation) (hone : inflation ≤ 1) :
    s.processProvisions = .ok { s.pool with
      inflation
      looseTokens := s.pool.looseTokens + nearestEven (inflation * s.pool.tokenSupply / 8766) } := by
  have hsupply := hcounted.tokenSupply_eq
  obtain ⟨hloose, hunbonded, hunbonding, hbonded, hsum⟩ := hcounted
  have hsupply₀ : (0 : ℚ) ≤ s.pool.tokenSupply := by
    have hle : 0 ≤ s.pool.tokenSupply := by omega
    exact_mod_cast hle
  have hsupply₁ : (s.pool.tokenSupply : ℚ) ≤ (2 ^ 62 : ℤ) := by
    have hle : s.pool.tokenSupply ≤ 2 ^ 62 := by omega
    exact_mod_cast hle
  have hlow : 0 ≤ nearestEven (inflation * s.pool.tokenSupply / 8766) := by
    apply le_nearestEven
    rw [Int.cast_zero]
    positivity
  have hhigh : nearestEven (inflation * s.pool.tokenSupply / 8766) ≤ 2 ^ 62 := by
    apply nearestEven_le
    have hproduct : inflation * s.pool.tokenSupply ≤ s.pool.tokenSupply :=
      mul_le_of_le_one_left hsupply₀ hone
    rw [div_le_iff₀ (by norm_num)]
    push_cast at hsupply₁ ⊢
    linarith
  have hyear : quo (inflation * s.pool.tokenSupply) hrsPerYr =
      .ok (inflation * s.pool.tokenSupply / 8766) :=
    quo_eq_ok.mpr ⟨by norm_num [hrsPerYr], rfl⟩
  rw [Store.processProvisions, hnext]
  simp only [bind, Except.bind, hyear, pure, Except.pure, roundInt64, evaluateBig_eq_nearestEven]
  rw [int64_eq_self (x := nearestEven _) (by omega) (by omega), int64_eq_self (by omega) (by omega)]

/-- A rate on the grid and in the band. -/
def InBand (low high : ℤ) (p : Pool) : Prop :=
  ∃ k : ℤ, p.inflation = k / precision ∧ low ≤ k ∧ k ≤ high

theorem InBand.processProvisions (hparams : s.params.Banded low high)
    (hband : InBand low high s.pool) (hcounted : s.pool.Counted) :
    ∃ pool', s.processProvisions = .ok pool' ∧ InBand low high pool' ∧
      Adjusts s.params s.pool pool' := by
  have hscale := precision_pos
  obtain ⟨k, hk, hlow, hhigh⟩ := hband
  have hnext := nextInflation_eq hparams hk
  generalize hmoved : drift precision low high k (hourlyChange s.params s.pool) = moved at hnext
  have hlow' : low ≤ moved := hmoved ▸ low_le_drift hscale
  have hhigh' : moved ≤ high := hmoved ▸ drift_le_high hscale hparams.low_le_high
  have hnonneg : (0 : ℚ) ≤ moved / precision := by
    have hmoved₀ : (0 : ℚ) ≤ moved := by exact_mod_cast hparams.low_nonneg.trans hlow'
    positivity
  have hone : (moved : ℚ) / precision ≤ 1 := by
    rw [div_le_one hscale]
    exact_mod_cast hhigh'.trans hparams.high_le_one
  refine ⟨_, processProvisions_eq hnext hcounted hnonneg hone, ⟨moved, rfl, hlow', hhigh'⟩,
    ⟨fun hbelow => ?_, fun habove => ?_, ?_, rfl⟩⟩
  · have hle : k ≤ moved := hmoved ▸ le_drift hscale hhigh (hourlyChange_nonneg hparams hbelow)
    rw [hk, div_le_div_iff_of_pos_right hscale]
    exact_mod_cast hle
  · have hle : moved ≤ k := hmoved ▸ drift_le hscale hlow (hourlyChange_nonpos hparams habove)
    rw [hk, div_le_div_iff_of_pos_right hscale]
    exact_mod_cast hle
  · have hchange := abs_hourlyChange_le hparams hcounted
    have hway : |(moved : ℚ) / precision - k / precision| ≤
        |hourlyChange s.params s.pool| + 1 / (2 * precision) :=
      hmoved ▸ abs_drift_sub_le hscale hlow hhigh
    rw [hk]
    dsimp only
    linarith

end

/-! ## Whole runs -/

theorem poolStep_inBand {s s' : Store} {event : PoolEvent} {params : Params} {low high : ℤ}
    (hparams : params.Banded low high) (hs : s.params = params ∧ InBand low high s.pool)
    (hevent : Accountable s event) (hstep : poolStep s event = .ok s') :
    s'.params = params ∧ InBand low high s'.pool := by
  obtain ⟨rfl, hband⟩ := hs
  cases event with
  | provisions =>
    obtain ⟨pool', hpool', hband', -⟩ := hband.processProvisions hparams hevent
    simp only [poolStep, hpool', bind_eq_ok, pure_eq_ok, Except.ok.injEq] at hstep
    obtain ⟨_, rfl, rfl⟩ := hstep
    exact ⟨rfl, hband'⟩
  | recount looseTokens unbondedTokens unbondingTokens bondedTokens =>
    cases hstep
    exact ⟨rfl, hband⟩

/-- With the default parameters and the initial rate, in every run the rate stays between the minimum and
the maximum, and whenever the token counts are sound the hour's provisions are processed without a
panic and adjust the pool as they should. -/
theorem inflation_in_band {start s : Store} {history : List (Store × PoolEvent)}
    (hparams : start.params = defaultParams) (hinitial : start.pool.inflation = initialPool.inflation)
    (hrun : Run poolStep start history s) (hcounts : Run.Meets Accountable history) :
    (defaultParams.inflationMin ≤ s.pool.inflation ∧
        s.pool.inflation ≤ defaultParams.inflationMax) ∧
      (s.pool.Counted →
        ∃ pool', poolStep s .provisions = .ok { s with pool := pool' } ∧
          Adjusts defaultParams s.pool pool') := by
  have hstart : start.params = defaultParams ∧ InBand 7000000000 20000000000 start.pool := by
    refine ⟨hparams, 7000000000, ?_, le_rfl, by norm_num⟩
    rw [hinitial]
    norm_num [initialPool, precision]
  obtain ⟨hs, hband⟩ := Run.invariant
    (fun s => s.params = defaultParams ∧ InBand 7000000000 20000000000 s.pool) hstart
    (poolStep_inBand defaultParams_banded) hrun hcounts
  constructor
  · obtain ⟨k, hk, hlow, hhigh⟩ := hband
    rw [hk, defaultParams_banded.inflationMin, defaultParams_banded.inflationMax,
      div_le_div_iff_of_pos_right precision_pos, div_le_div_iff_of_pos_right precision_pos]
    exact ⟨by exact_mod_cast hlow, by exact_mod_cast hhigh⟩
  · intro hcounted
    obtain ⟨pool', hpool', -, hadjusts⟩ :=
      hband.processProvisions (hs.symm ▸ defaultParams_banded) hcounted
    refine ⟨pool', ?_, hs ▸ hadjusts⟩
    rw [poolStep, hpool']
    rfl

/-- A chain with nothing bonded, in its first hour and after everything was bonded. -/
theorem inflation_in_band_example :
    let start := emptyStore defaultParams { initialPool with looseTokens := 1000000000 } ⟨∅, 0⟩
    let events : List PoolEvent := [.provisions, .recount 0 0 0 1000007987]
    ∃ s, Run poolStep start (Run.historyOf poolStep start events) s ∧
      (∃ pool', poolStep s .provisions = .ok { s with pool := pool' } ∧
        Adjusts defaultParams s.pool pool') := by
  intro start events
  obtain ⟨s, hrun, hcounted⟩ := Run.of_leadsTo poolStep start events
    (fun s => decide s.pool.Counted) (by decide +kernel)
  have hmeets : Run.Meets Accountable (Run.historyOf poolStep start events) := by decide +kernel
  exact ⟨s, hrun, (inflation_in_band rfl rfl hrun hmeets).2 (of_decide_eq_true hcounted)⟩

end Tepleton.Stake
