import Tepleton.Stake.Keeper.Key
import Tepleton.Bank.Keeper

/-!
# The staking store: `x/stake/keeper/keeper.go`

The keeper's key-value store with one field per key prefix, together with the account store its
coin keeper works on.  The parameters, the pool and the in-block counter are written when the chain
starts and never deleted, so they are plain fields; the two cliff entries may be absent.
-/

namespace Tepleton.Stake

open Lib Auth

/-- What the modelled code reads of `sdk.Context`: the height and time of the block header. -/
structure Ctx where
  blockHeight : ℤ
  blockTime : ℤ
  deriving DecidableEq, Repr

instance transCmp_pair : Std.TransCmp (LinearOrder.toOrd (α := Address ×ₗ Address)).compare :=
  inferInstance

instance transCmp_triple :
    Std.TransCmp (LinearOrder.toOrd (α := Address ×ₗ Address ×ₗ Address)).compare := inferInstance

/-- The staking store and the account store. -/
structure Store where
  params : Params
  pool : Pool
  validators : KVStore Address Validator
  validatorsByPubKey : KVStore PubKey Address
  validatorsBonded : KVStore Address Address
  validatorsByPower : KVStore Bytes Address
  validatorCliff : Option Address
  validatorPowerCliff : Option Bytes
  tendermintUpdates : KVStore Address WRSPValidator
  intraTxCounter : ℤ
  delegations : KVStore (Address ×ₗ Address) Delegation
  unbondingDelegations : KVStore (Address ×ₗ Address) UnbondingDelegation
  unbondingDelegationsByVal : KVStore (Address ×ₗ Address) (Address ×ₗ Address)
  redelegations : KVStore (Address ×ₗ Address ×ₗ Address) Redelegation
  redelegationsByValSrc : KVStore (Address ×ₗ Address ×ₗ Address) (Address ×ₗ Address ×ₗ Address)
  redelegationsByValDst : KVStore (Address ×ₗ Address ×ₗ Address) (Address ×ₗ Address ×ₗ Address)
  accounts : AccountStore

/-- A staking store with parameters, a pool and accounts, and no validators. -/
def emptyStore (params : Params) (pool : Pool) (accounts : AccountStore) : Store :=
  { params, pool, accounts, validators := ∅, validatorsByPubKey := ∅, validatorsBonded := ∅,
    validatorsByPower := ∅, validatorCliff := none, validatorPowerCliff := none,
    tendermintUpdates := ∅, intraTxCounter := 0, delegations := ∅, unbondingDelegations := ∅,
    unbondingDelegationsByVal := ∅, redelegations := ∅, redelegationsByValSrc := ∅,
    redelegationsByValDst := ∅ }

namespace Store

def setPool (s : Store) (pool : Pool) : Store := { s with pool }

def setIntraTxCounter (s : Store) (counter : ℤ) : Store := { s with intraTxCounter := counter }

def getValidator (s : Store) (addr : Address) : Option Validator := s.validators[addr]?

def getValidatorByPubKey (s : Store) (pubkey : PubKey) : Option Validator :=
  s.validatorsByPubKey[pubkey]?.bind s.getValidator

def setValidator (s : Store) (validator : Validator) : Store :=
  { s with validators := s.validators.insert validator.owner validator }

def setValidatorByPubKeyIndex (s : Store) (validator : Validator) : Store :=
  { s with validatorsByPubKey := s.validatorsByPubKey.insert validator.pubKey validator.owner }

def setValidatorBondedIndex (s : Store) (validator : Validator) : Store :=
  { s with validatorsBonded := s.validatorsBonded.insert validator.owner validator.owner }

/-- A write under `GetTendermintUpdatesKey`. -/
def setTendermintUpdate (s : Store) (ownerAddr : Address) (update : WRSPValidator) : Store :=
  { s with tendermintUpdates := s.tendermintUpdates.insert ownerAddr update }

/-! ## Reading back -/

@[simp] theorem getValidator_setValidator_self (s : Store) (v : Validator) :
    (s.setValidator v).getValidator v.owner = some v :=
  KVStore.getElem?_insert_self _ _ _

theorem getValidator_setValidator (s : Store) (v : Validator) (addr : Address) :
    (s.setValidator v).getValidator addr = if v.owner = addr then some v else s.getValidator addr :=
  KVStore.getElem?_insert _ _ _ _

end Store

end Tepleton.Stake
