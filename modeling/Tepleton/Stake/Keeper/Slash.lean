import Tepleton.Stake.Keeper.Delegation

/-!
# Slashing: `x/stake/keeper/slash.go`

`slash` first takes its share of the unbonding delegations and redelegations that began at or after
the infraction and then removes shares from the validator.  The validator was read before the
redelegations are slashed, and slashing one of them updates validators.
-/

namespace Tepleton.Stake.Store

open Lib

/-- `Keeper.slashUnbondingDelegation`: the store and the amount to be slashed. -/
def slashUnbondingDelegation (ctx : Ctx) (s : Store) (ubd : UnbondingDelegation)
    (infractionHeight : ℤ) (slashFactor : ℚ) : Outcome (Store × ℤ) :=
  if ubd.creationHeight < infractionHeight then .ok (s, 0)
  else if ubd.minTime < ctx.blockTime then .ok (s, 0)
  else do
    let slashAmount ← roundInt (ubd.initialBalance.amount * slashFactor)
    let unbondingSlashAmount := min slashAmount ubd.balance.amount
    if unbondingSlashAmount = 0 then return (s, slashAmount)
    else
      let amount ← subInt ubd.balance.amount unbondingSlashAmount
      let s := s.setUnbondingDelegation { ubd with balance := { ubd.balance with amount } }
      -- the amount asked for is burned, which may exceed the balance
      let burned ← toInt64 slashAmount
      return (s.setPool { s.pool with looseTokens := int64 (s.pool.looseTokens - burned) },
        slashAmount)

/-- The end of `Keeper.slashRedelegation`: unbonding from the target validator and burning. -/
def burnRedelegated (ctx : Ctx) (s : Store) (red : Redelegation) (slashFactor : ℚ) :
    Outcome Store :=
  if slashFactor * red.sharesDst = 0 then .ok s
  else
    match s.getDelegation red.delegatorAddr red.validatorDstAddr with
    | none => .ok s
    | some delegation =>
      let sharesToUnbond := min (slashFactor * red.sharesDst) delegation.shares
      match s.unbond ctx red.delegatorAddr red.validatorDstAddr sharesToUnbond with
      | .error (.error err) => .error (.panic (.errorUnbondingDelegator err))
      | .error (.panic reason) => .error (.panic reason)
      | .ok (s, tokensToBurn) =>
        .ok (s.setPool { s.pool with looseTokens := int64 (s.pool.looseTokens - tokensToBurn) })

def slashRedelegation (ctx : Ctx) (s : Store) (red : Redelegation) (infractionHeight : ℤ)
    (slashFactor : ℚ) : Outcome (Store × ℤ) :=
  if red.creationHeight < infractionHeight then .ok (s, 0)
  else if red.minTime < ctx.blockTime then .ok (s, 0)
  else do
    let slashAmount ← roundInt (red.initialBalance.amount * slashFactor)
    let redelegationSlashAmount := min slashAmount red.balance.amount
    let s ← if redelegationSlashAmount = 0 then pure s
      else do
        let amount ← subInt red.balance.amount redelegationSlashAmount
        pure (s.setRedelegation { red with balance := { red.balance with amount } })
    let s ← s.burnRedelegated ctx red slashFactor
    return (s, slashAmount)

/-- One round of the two loops of `Slash`: the amount slashed is taken off the remaining one. -/
def slashRecord (slashOne : Store → Outcome (Store × ℤ)) (s : Store) (remaining : ℤ) :
    Outcome (Store × ℤ) := do
  let (s, amountSlashed) ← slashOne s
  if amountSlashed = 0 then return (s, remaining)
  else return (s, ← subInt remaining amountSlashed)

/-- The part of `Keeper.Slash` that goes through unbonding delegations and redelegations: the store
and the amount that remains to be slashed. -/
def slashRecords (ctx : Ctx) (s : Store) (ownerAddress : Address) (infractionHeight : ℤ)
    (slashFactor : ℚ) (slashAmount : ℤ) : Outcome (Store × ℤ) :=
  if ctx.blockHeight < infractionHeight then
    .error (.panic (.slashFutureInfraction infractionHeight ctx.blockHeight))
  else if infractionHeight = ctx.blockHeight then .ok (s, slashAmount)
  else do
    let unbondingDelegations ← s.getUnbondingDelegationsFromValidator ownerAddress
    let (s, remaining) ← unbondingDelegations.foldlM (fun acc ubd => slashRecord
      (fun s => s.slashUnbondingDelegation ctx ubd infractionHeight slashFactor) acc.1 acc.2)
      (s, slashAmount)
    let redelegations ← s.getRedelegationsFromValidator ownerAddress
    redelegations.foldlM (fun acc red => slashRecord
      (fun s => s.slashRedelegation ctx red infractionHeight slashFactor) acc.1 acc.2)
      (s, remaining)

/-- The part of `Keeper.Slash` that takes shares from the validator and burns their tokens. -/
def slashValidator (s : Store) (validator : Validator) (remaining : ℤ) :
    Outcome (Store × Validator) := do
  let held ← roundInt validator.poolShares.amount
  let sharesToRemove : ℤ := min remaining held
  let (validator, pool, burned) ← validator.removePoolShares s.pool sharesToRemove
  return (s.setPool { pool with looseTokens := int64 (pool.looseTokens - burned) }, validator)

/-- `Keeper.Slash` before the validator is updated. -/
def prepareSlash (ctx : Ctx) (s : Store) (pubkey : PubKey) (infractionHeight power : ℤ)
    (slashFactor : ℚ) : Outcome (Store × Validator) :=
  if slashFactor < 0 then .error (.panic .negativeSlashFactor)
  else do
    let slashAmount ← roundInt (power * slashFactor)
    match s.getValidatorByPubKey pubkey with
    | none => throw (.panic (.slashNonexistentValidator pubkey))
    | some validator =>
      let (s, remaining) ← s.slashRecords ctx validator.owner infractionHeight slashFactor
        slashAmount
      s.slashValidator validator remaining

def slash (ctx : Ctx) (s : Store) (pubkey : PubKey) (infractionHeight power : ℤ)
    (slashFactor : ℚ) : Outcome Store := do
  let (s, validator) ← s.prepareSlash ctx pubkey infractionHeight power slashFactor
  let (s, _) ← s.updateValidator ctx validator
  return s

def setRevoked (ctx : Ctx) (s : Store) (pubkey : PubKey) (revoked : Bool) : Outcome Store :=
  match s.getValidatorByPubKey pubkey with
  | none => .error (.panic (.setRevokedNotFound pubkey revoked))
  | some validator => do
      let (s, _) ← s.updateValidator ctx { validator with revoked }
      return s

def revoke (ctx : Ctx) (s : Store) (pubkey : PubKey) : Outcome Store := s.setRevoked ctx pubkey true

def unrevoke (ctx : Ctx) (s : Store) (pubkey : PubKey) : Outcome Store :=
  s.setRevoked ctx pubkey false

end Tepleton.Stake.Store
