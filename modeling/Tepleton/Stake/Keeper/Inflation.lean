import Tepleton.Stake.Keeper.Store

/-!
# Inflation: `x/stake/keeper/inflation.go`

The hourly provisions, added to the loose tokens, and the inflation rate they are computed from.
-/

namespace Tepleton.Stake

open Lib

def hrsPerYr : ℚ := 8766

def precision : ℤ := 100000000000

def Pool.bondedRatio (p : Pool) : ℚ :=
  if 0 < p.tokenSupply then p.bondedTokens / p.tokenSupply else 0

namespace Store

def nextInflation (s : Store) : Outcome ℚ := do
  let goalRatio ← quo s.pool.bondedRatio s.params.goalBonded
  let inflationRateChangePerYear := (1 - goalRatio) * s.params.inflationRateChange
  let inflationRateChange ← quo inflationRateChangePerYear hrsPerYr
  let inflation := s.pool.inflation + inflationRateChange
  let inflation := if s.params.inflationMax < inflation then s.params.inflationMax else inflation
  let inflation := if inflation < s.params.inflationMin then s.params.inflationMin else inflation
  round inflation precision

/-- `Keeper.ProcessProvisions`: the pool with the hour's provisions, not yet stored. -/
def processProvisions (s : Store) : Outcome Pool := do
  let inflation ← s.nextInflation
  let provisions ← quo (inflation * s.pool.tokenSupply) hrsPerYr
  return { s.pool with
    inflation
    looseTokens := int64 (s.pool.looseTokens + roundInt64 provisions) }

end Store

end Tepleton.Stake
