import Tepleton.Stake.Keeper.Slash
import Tepleton.Stake.Keeper.Inflation

/-!
# Messages and blocks: `x/stake/handler.go`

The handlers of the stake messages, `EndBlocker`, and the steps a chain takes: a message, run
through its own validation and then its handler; a call of `Revoke`, `Unrevoke` or `Slash` from
another module; or the end of a block.  A step that fails is rolled back, so it is not a step.
-/

namespace Tepleton.Stake

open Lib

/-! ## Handlers -/

/-- `handleMsgCreateValidator` before the self-delegation: the new validator is stored. -/
def registerValidator (s : Store) (msg : MsgCreateValidator) : Outcome (Store × Validator) :=
  match s.getValidator msg.validatorAddr with
  | some _ => .error (.error errValidatorAlreadyExists)
  | none =>
    if msg.selfDelegation.denom ≠ s.params.bondDenom then .error (.error errBadDenom)
    else
      let validator := newValidator msg.validatorAddr msg.pubKey msg.description
      .ok ((s.setValidator validator).setValidatorByPubKeyIndex validator, validator)

/-- `handleMsgCreateValidator` before the validator is updated. -/
def prepareCreateValidator (ctx : Ctx) (s : Store) (msg : MsgCreateValidator) :
    Outcome (Store × Validator) := do
  let (s, validator) ← registerValidator s msg
  let (s, validator, _) ← s.prepareDelegate ctx msg.validatorAddr msg.selfDelegation validator
  return (s, validator)

def handleMsgCreateValidator (ctx : Ctx) (s : Store) (msg : MsgCreateValidator) :
    Outcome Store := do
  let (s, validator) ← registerValidator s msg
  let (s, _) ← s.delegate ctx msg.validatorAddr msg.selfDelegation validator
  return s

def handleMsgEditValidator (ctx : Ctx) (s : Store) (msg : MsgEditValidator) : Outcome Store :=
  match s.getValidator msg.validatorAddr with
  | none => .error (.error errNoValidatorFound)
  | some validator => do
      let description ← validator.description.updateDescription msg.description
      let (s, _) ← s.updateValidator ctx { validator with description }
      return s

def handleMsgDelegate (ctx : Ctx) (s : Store) (msg : MsgDelegate) : Outcome Store :=
  match s.getValidator msg.validatorAddr with
  | none => .error (.error errNoValidatorFound)
  | some validator =>
    if msg.bond.denom ≠ s.params.bondDenom then .error (.error errBadDenom)
    else if validator.revoked then .error (.error errValidatorRevoked)
    else do
      let (s, _) ← s.delegate ctx msg.delegatorAddr msg.bond validator
      return s

def handleMsgBeginUnbonding (ctx : Ctx) (s : Store) (msg : MsgBeginUnbonding) : Outcome Store :=
  s.beginUnbonding ctx msg.delegatorAddr msg.validatorAddr msg.sharesAmount

def handleMsgCompleteUnbonding (ctx : Ctx) (s : Store) (msg : MsgCompleteUnbonding) :
    Outcome Store :=
  s.completeUnbonding ctx msg.delegatorAddr msg.validatorAddr

def handleMsgBeginRedelegate (ctx : Ctx) (s : Store) (msg : MsgBeginRedelegate) : Outcome Store :=
  s.beginRedelegation ctx msg.delegatorAddr msg.validatorSrcAddr msg.validatorDstAddr
    msg.sharesAmount

def handleMsgCompleteRedelegate (ctx : Ctx) (s : Store) (msg : MsgCompleteRedelegate) :
    Outcome Store :=
  s.completeRedelegation ctx msg.delegatorAddr msg.validatorSrcAddr msg.validatorDstAddr

/-- The pool `EndBlocker` stores.  The time of the last inflation is set on a copy of the pool that
`ProcessProvisions` does not use, so it is lost. -/
def endBlockPool (ctx : Ctx) (s : Store) : Outcome Pool :=
  if 3600 ≤ int64 (s.pool.inflationLastTime + ctx.blockTime) then s.processProvisions
  else .ok s.pool

/-- `EndBlocker`: the store and the validator updates for the consensus engine. -/
def endBlocker (ctx : Ctx) (s : Store) : Outcome (Store × List WRSPValidator) := do
  let pool ← endBlockPool ctx s
  let s := (s.setPool pool).setIntraTxCounter 0
  return (s.clearTendermintUpdates, s.getTendermintUpdates)

/-! ## Steps -/

/-- What can happen to the staking state. -/
inductive Op
  | createValidator (msg : MsgCreateValidator)
  | editValidator (msg : MsgEditValidator)
  | delegate (msg : MsgDelegate)
  | beginUnbonding (msg : MsgBeginUnbonding)
  | completeUnbonding (msg : MsgCompleteUnbonding)
  | beginRedelegate (msg : MsgBeginRedelegate)
  | completeRedelegate (msg : MsgCompleteRedelegate)
  | revoke (pubkey : PubKey)
  | unrevoke (pubkey : PubKey)
  | slash (pubkey : PubKey) (infractionHeight power : ℤ) (slashFactor : ℚ)
  /-- `EndBlocker` runs and the next block, at time `blockTime`, begins. -/
  | endBlock (blockTime : ℤ)

/-- The header of the block being executed and the store. -/
structure State where
  ctx : Ctx
  store : Store

/-- A message or keeper call, in the block with header `ctx`.  `endBlock` is not one. -/
def deliver (ctx : Ctx) (s : Store) : Op → Outcome Store
  | .createValidator msg => do msg.validateBasic; handleMsgCreateValidator ctx s msg
  | .editValidator msg => do msg.validateBasic; handleMsgEditValidator ctx s msg
  | .delegate msg => do msg.validateBasic; handleMsgDelegate ctx s msg
  | .beginUnbonding msg => do msg.validateBasic; handleMsgBeginUnbonding ctx s msg
  | .completeUnbonding msg => handleMsgCompleteUnbonding ctx s msg
  | .beginRedelegate msg => do msg.validateBasic; handleMsgBeginRedelegate ctx s msg
  | .completeRedelegate msg => handleMsgCompleteRedelegate ctx s msg
  | .revoke pubkey => s.revoke ctx pubkey
  | .unrevoke pubkey => s.unrevoke ctx pubkey
  | .slash pubkey infractionHeight power slashFactor =>
    s.slash ctx pubkey infractionHeight power slashFactor
  | .endBlock _ => .ok s

/-- The header of the next block.  Heights are `int64`: there is no block after the last one. -/
def Ctx.next (ctx : Ctx) (blockTime : ℤ) : Outcome Ctx :=
  if ctx.blockHeight + 1 < 2 ^ 63 then .ok ⟨ctx.blockHeight + 1, blockTime⟩
  else .error (.panic .intOverflow)

/-- One step of the chain. -/
def step (st : State) : Op → Outcome State
  | .endBlock blockTime => do
      let (store, _) ← endBlocker st.ctx st.store
      let ctx ← st.ctx.next blockTime
      return ⟨ctx, store⟩
  | op => do
      let store ← deliver st.ctx st.store op
      return ⟨st.ctx, store⟩

end Tepleton.Stake
