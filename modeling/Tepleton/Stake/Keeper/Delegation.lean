import Tepleton.Stake.Keeper.Validator

/-!
# Delegations: `x/stake/keeper/delegation.go`

`delegate` and `unbond` change a delegation, the pool and a copy of the validator, and then hand
the copy to `updateValidator`.  The part before that call is named `prepareDelegate` and
`prepareUnbond`.

The records that `beginUnbonding` and `beginRedelegation` store have no creation height set, so it
is zero.
-/

namespace Tepleton.Stake.Store

open Lib

/-! ## Records -/

def getDelegation (s : Store) (delegatorAddr validatorAddr : Address) : Option Delegation :=
  s.delegations[getDelegationKey delegatorAddr validatorAddr]?

def setDelegation (s : Store) (delegation : Delegation) : Store :=
  let key := getDelegationKey delegation.delegatorAddr delegation.validatorAddr
  { s with delegations := s.delegations.insert key delegation }

def removeDelegation (s : Store) (delegation : Delegation) : Store :=
  let key := getDelegationKey delegation.delegatorAddr delegation.validatorAddr
  { s with delegations := s.delegations.erase key }

def getUnbondingDelegation (s : Store) (delegatorAddr validatorAddr : Address) :
    Option UnbondingDelegation :=
  s.unbondingDelegations[getUBDKey delegatorAddr validatorAddr]?

/-- `Keeper.GetUnbondingDelegationsFromValidator`: an index entry without a record is a panic. -/
def getUnbondingDelegationsFromValidator (s : Store) (valAddr : Address) :
    Outcome (List UnbondingDelegation) :=
  (s.unbondingDelegationsByVal.toList.filter fun entry => (ofLex entry.1).1 = valAddr).mapM
    fun entry =>
      match s.unbondingDelegations[entry.2]? with
      | none => .error (.panic .unmarshalNil)
      | some ubd => .ok ubd

def setUnbondingDelegation (s : Store) (ubd : UnbondingDelegation) : Store :=
  let ubdKey := getUBDKey ubd.delegatorAddr ubd.validatorAddr
  { s with
    unbondingDelegations := s.unbondingDelegations.insert ubdKey ubd
    unbondingDelegationsByVal := s.unbondingDelegationsByVal.insert
      (getUBDByValIndexKey ubd.delegatorAddr ubd.validatorAddr) ubdKey }

def removeUnbondingDelegation (s : Store) (ubd : UnbondingDelegation) : Store :=
  { s with
    unbondingDelegations := s.unbondingDelegations.erase
      (getUBDKey ubd.delegatorAddr ubd.validatorAddr)
    unbondingDelegationsByVal := s.unbondingDelegationsByVal.erase
      (getUBDByValIndexKey ubd.delegatorAddr ubd.validatorAddr) }

def getRedelegation (s : Store) (delegatorAddr validatorSrcAddr validatorDstAddr : Address) :
    Option Redelegation :=
  s.redelegations[getREDKey delegatorAddr validatorSrcAddr validatorDstAddr]?

def getRedelegationsFromValidator (s : Store) (valAddr : Address) : Outcome (List Redelegation) :=
  (s.redelegationsByValSrc.toList.filter fun entry => (ofLex entry.1).1 = valAddr).mapM
    fun entry =>
      match s.redelegations[entry.2]? with
      | none => .error (.panic .unmarshalNil)
      | some red => .ok red

def hasReceivingRedelegation (s : Store) (delegatorAddr validatorDstAddr : Address) : Bool :=
  s.redelegationsByValDst.toList.any fun entry =>
    (ofLex entry.1).1 = validatorDstAddr ∧ (ofLex (ofLex entry.1).2).1 = delegatorAddr

def setRedelegation (s : Store) (red : Redelegation) : Store :=
  let redKey := getREDKey red.delegatorAddr red.validatorSrcAddr red.validatorDstAddr
  { s with
    redelegations := s.redelegations.insert redKey red
    redelegationsByValSrc := s.redelegationsByValSrc.insert
      (getREDByValSrcIndexKey red.delegatorAddr red.validatorSrcAddr red.validatorDstAddr) redKey
    redelegationsByValDst := s.redelegationsByValDst.insert
      (getREDByValDstIndexKey red.delegatorAddr red.validatorSrcAddr red.validatorDstAddr) redKey }

def removeRedelegation (s : Store) (red : Redelegation) : Store :=
  { s with
    redelegations := s.redelegations.erase
      (getREDKey red.delegatorAddr red.validatorSrcAddr red.validatorDstAddr)
    redelegationsByValSrc := s.redelegationsByValSrc.erase
      (getREDByValSrcIndexKey red.delegatorAddr red.validatorSrcAddr red.validatorDstAddr)
    redelegationsByValDst := s.redelegationsByValDst.erase
      (getREDByValDstIndexKey red.delegatorAddr red.validatorSrcAddr red.validatorDstAddr) }

section Records

variable (s : Store) (ubd : UnbondingDelegation) (red : Redelegation) (d v w : Address)

theorem getUnbondingDelegation_set :
    (s.setUnbondingDelegation ubd).getUnbondingDelegation d v =
      if ubd.delegatorAddr = d ∧ ubd.validatorAddr = v then some ubd
      else s.getUnbondingDelegation d v := by
  rw [getUnbondingDelegation, setUnbondingDelegation, KVStore.getElem?_insert]
  simp only [getUBDKey, toLex_inj, Prod.mk.injEq]
  rfl

theorem getUnbondingDelegation_remove :
    (s.removeUnbondingDelegation ubd).getUnbondingDelegation d v =
      if ubd.delegatorAddr = d ∧ ubd.validatorAddr = v then none
      else s.getUnbondingDelegation d v := by
  rw [getUnbondingDelegation, removeUnbondingDelegation, KVStore.getElem?_erase]
  simp only [getUBDKey, toLex_inj, Prod.mk.injEq]
  rfl

theorem getRedelegation_set :
    (s.setRedelegation red).getRedelegation d v w =
      if red.delegatorAddr = d ∧ red.validatorSrcAddr = v ∧ red.validatorDstAddr = w then some red
      else s.getRedelegation d v w := by
  rw [getRedelegation, setRedelegation, KVStore.getElem?_insert]
  simp only [getREDKey, toLex_inj, Prod.mk.injEq]
  rfl

theorem getRedelegation_remove :
    (s.removeRedelegation red).getRedelegation d v w =
      if red.delegatorAddr = d ∧ red.validatorSrcAddr = v ∧ red.validatorDstAddr = w then none
      else s.getRedelegation d v w := by
  rw [getRedelegation, removeRedelegation, KVStore.getElem?_erase]
  simp only [getREDKey, toLex_inj, Prod.mk.injEq]
  rfl

end Records

/-! ## Delegating and unbonding -/

/-- `Keeper.Delegate` before the validator is updated: the store, the validator to update and the
shares issued. -/
def prepareDelegate (ctx : Ctx) (s : Store) (delegatorAddr : Address) (bondAmt : Coin)
    (validator : Validator) : Outcome (Store × Validator × ℚ) := do
  let delegation := (s.getDelegation delegatorAddr validator.owner).getD
    ⟨delegatorAddr, validator.owner, 0, 0⟩
  let accounts ← Bank.subtractCoins s.accounts delegation.delegatorAddr [bondAmt]
  let amount ← toInt64 bondAmt.amount
  let (validator, pool, newShares) ← validator.addTokensFromDel s.pool amount
  let delegation := { delegation with
    shares := delegation.shares + newShares
    height := ctx.blockHeight }
  return (({ s with accounts }.setPool pool).setDelegation delegation, validator, newShares)

def delegate (ctx : Ctx) (s : Store) (delegatorAddr : Address) (bondAmt : Coin)
    (validator : Validator) : Outcome (Store × ℚ) := do
  let (s, validator, newShares) ← s.prepareDelegate ctx delegatorAddr bondAmt validator
  let (s, _) ← s.updateValidator ctx validator
  return (s, newShares)

/-- The delegation with `shares` left, or without shares no delegation. -/
def putDelegation (ctx : Ctx) (s : Store) (delegation : Delegation) : Store :=
  if delegation.shares = 0 then s.removeDelegation delegation
  else s.setDelegation { delegation with height := ctx.blockHeight }

/-- `Keeper.unbond` before the validator is updated: the store, the validator to update and the
tokens freed.  The owner's last share revokes the validator. -/
def prepareUnbond (ctx : Ctx) (s : Store) (delegatorAddr validatorAddr : Address) (shares : ℚ) :
    Outcome (Store × Validator × ℤ) :=
  match s.getDelegation delegatorAddr validatorAddr with
  | none => .error (.error errNoDelegatorForAddress)
  | some delegation =>
    if delegation.shares < shares then
      .error (.error (errNotEnoughDelegationShares delegation.shares))
    else
      match s.getValidator validatorAddr with
      | none => .error (.error errNoValidatorFound)
      | some validator => do
          let delegation := { delegation with shares := delegation.shares - shares }
          let validator := { validator with
            revoked := validator.revoked ||
              decide (delegation.shares = 0 ∧ delegation.delegatorAddr = validator.owner) }
          let s := s.putDelegation ctx delegation
          let (validator, pool, amount) ← validator.removeDelShares s.pool shares
          return (s.setPool pool, validator, amount)

/-- The end of `Keeper.unbond`: a validator without delegator shares is removed. -/
def removeIfEmpty (s : Store) (validator : Validator) : Outcome Store :=
  if validator.delegatorShares = 0 then s.removeValidator validator.owner else .ok s

def unbond (ctx : Ctx) (s : Store) (delegatorAddr validatorAddr : Address) (shares : ℚ) :
    Outcome (Store × ℤ) := do
  let (s, validator, amount) ← s.prepareUnbond ctx delegatorAddr validatorAddr shares
  let (s, validator) ← s.updateValidator ctx validator
  let s ← s.removeIfEmpty validator
  return (s, amount)

/-! ## Unbonding and redelegation records -/

def beginUnbonding (ctx : Ctx) (s : Store) (delegatorAddr validatorAddr : Address)
    (sharesAmount : ℚ) : Outcome Store := do
  let (s, returnAmount) ← s.unbond ctx delegatorAddr validatorAddr sharesAmount
  let balance : Coin := ⟨s.params.bondDenom, returnAmount⟩
  return s.setUnbondingDelegation
    { delegatorAddr, validatorAddr, creationHeight := 0
      minTime := int64 (ctx.blockTime + s.params.unbondingTime)
      initialBalance := balance, balance }

def completeUnbonding (ctx : Ctx) (s : Store) (delegatorAddr validatorAddr : Address) :
    Outcome Store :=
  match s.getUnbondingDelegation delegatorAddr validatorAddr with
  | none => .error (.error errNoUnbondingDelegation)
  | some ubd =>
    if ctx.blockTime < ubd.minTime then
      .error (.error (errNotMature "unbonding" "unit-time" ubd.minTime ctx.blockTime))
    else do
      let accounts ← Bank.addCoins s.accounts ubd.delegatorAddr [ubd.balance]
      return { s with accounts }.removeUnbondingDelegation ubd

def beginRedelegation (ctx : Ctx) (s : Store)
    (delegatorAddr validatorSrcAddr validatorDstAddr : Address) (sharesAmount : ℚ) :
    Outcome Store :=
  if s.hasReceivingRedelegation delegatorAddr validatorSrcAddr then
    .error (.error errTransitiveRedelegation)
  else do
    let (s, returnAmount) ← s.unbond ctx delegatorAddr validatorSrcAddr sharesAmount
    let returnCoin : Coin := ⟨s.params.bondDenom, returnAmount⟩
    match s.getValidator validatorDstAddr with
    | none => throw (.error errBadRedelegationDst)
    | some dstValidator =>
      let params := s.params
      let (s, sharesCreated) ← s.delegate ctx delegatorAddr returnCoin dstValidator
      return s.setRedelegation
        { delegatorAddr, validatorSrcAddr, validatorDstAddr, creationHeight := 0
          minTime := int64 (ctx.blockTime + params.unbondingTime)
          initialBalance := returnCoin, balance := returnCoin
          sharesSrc := sharesAmount, sharesDst := sharesCreated }

def completeRedelegation (ctx : Ctx) (s : Store)
    (delegatorAddr validatorSrcAddr validatorDstAddr : Address) : Outcome Store :=
  match s.getRedelegation delegatorAddr validatorSrcAddr validatorDstAddr with
  | none => .error (.error errNoRedelegation)
  | some red =>
    if ctx.blockTime < red.minTime then
      .error (.error (errNotMature "redelegation" "unit-time" red.minTime ctx.blockTime))
    else .ok (s.removeRedelegation red)

end Tepleton.Stake.Store
