import Tepleton.Stake.Keeper.Store

/-!
# The validator set: `x/stake/keeper/validator.go`

`updateValidator` is called whenever a validator changes.  It works on a local copy of the
validator, which reaches the main store only when the function returns: until then the store holds
the old record, or the one that bonding or unbonding the validator has written meanwhile.  The
model keeps the order of the reads and writes.

The by-power index is not written while `updateBondedValidators` walks it, so the walk is over the
list of its entries.
-/

namespace Tepleton.Stake

open Lib

namespace Store

def unbondValidator (s : Store) (validator : Validator) : Outcome (Store × Validator) :=
  if validator.status = .unbonded then
    .error (.panic (.shouldNotAlreadyBeUnbonded validator.owner))
  else do
    let (validator, pool) ← validator.updateStatus s.pool .unbonded
    let s := ((s.setPool pool).setValidator validator).setTendermintUpdate validator.owner
      validator.wrspValidatorZero
    return ({ s with validatorsBonded := s.validatorsBonded.erase validator.owner }, validator)

def bondValidator (s : Store) (validator : Validator) : Outcome (Store × Validator) :=
  if validator.status = .bonded then
    .error (.panic (.shouldNotAlreadyBeBonded validator.owner))
  else do
    let (validator, pool) ← validator.updateStatus s.pool .bonded
    let s := ((s.setPool pool).setValidator validator).setValidatorBondedIndex validator
    return (s.setTendermintUpdate validator.owner validator.wrspValidator, validator)

def setCliffValidator (s : Store) (validator : Validator) (pool : Pool) : Outcome Store := do
  let bz ← getValidatorsByPowerIndexKey validator pool
  return { s with validatorPowerCliff := some bz, validatorCliff := some validator.owner }

def clearCliffValidator (s : Store) : Store :=
  { s with validatorPowerCliff := none, validatorCliff := none }

def removeValidator (s : Store) (address : Address) : Outcome Store :=
  match s.getValidator address with
  | none => .ok s
  | some validator => do
      let key ← getValidatorsByPowerIndexKey validator s.pool
      let s := { s with
        validators := s.validators.erase address
        validatorsByPubKey := s.validatorsByPubKey.erase validator.pubKey
        validatorsByPower := s.validatorsByPower.erase key }
      if s.validatorsBonded[validator.owner]? = none then return s
      else
        let s := { s with validatorsBonded := s.validatorsBonded.erase validator.owner }
        return s.setTendermintUpdate address validator.wrspValidatorZero

end Store

/-- The validator with a height and a counter: its place in line among equals. -/
def Validator.stamped (v : Validator) (height counter : ℤ) : Validator :=
  { v with bondHeight := height, bondIntraTxCounter := counter }

/-! ## The bonded set -/

/-- The loop's test for bonding a validator: it is not bonded and not revoked. -/
def Validator.Enters (v : Validator) : Prop := v.status ≠ .bonded ∧ v.revoked = false

instance (v : Validator) : Decidable v.Enters := inferInstanceAs (Decidable (_ ∧ _))

namespace Store

/-- The record behind an index entry. -/
def getIndexed (s : Store) (address : Address) : Outcome Validator :=
  match s.getValidator address with
  | none => .error (.panic (.validatorRecordNotFound address))
  | some validator => .ok validator

/-- The record the loop looks at for an entry of the by-power index: for the validator being
updated the copy it was given, which is not in the main store yet. -/
def current (s : Store) (newValidator : Validator) (ownerAddr : Address) : Outcome Validator :=
  if ownerAddr = newValidator.owner then .ok newValidator else s.getIndexed ownerAddr

end Store

/-- The variables of the loop in `UpdateBondedValidators`.  `validator` is unset until the first
round. -/
structure BondLoop where
  store : Store
  bondedValidatorsCount : ℕ
  validator : Option Validator
  kickCliffValidator : Bool
  updatedVal : Option Validator

namespace BondLoop

/-- One round of the loop. -/
def next (newValidator : Validator) (l : BondLoop) (ownerAddr : Address) : Outcome BondLoop := do
  let validator ← l.store.current newValidator ownerAddr
  if validator.Enters then
    let (store, validator) ← l.store.bondValidator validator
    return { store, bondedValidatorsCount := l.bondedValidatorsCount + 1, validator := some validator,
             kickCliffValidator := true,
             updatedVal := if ownerAddr = newValidator.owner then some validator else l.updatedVal }
  else if validator.revoked ∧ validator.status = .bonded then
    throw (.panic (.revokedValidatorCannotBeBonded ownerAddr))
  else
    return { l with bondedValidatorsCount := l.bondedValidatorsCount + 1
                    validator := some validator }

/-- What happens when the loop stops: with all places taken, the last validator is the cliff. -/
def finish (maxValidators : Fin (2 ^ 16)) (l : BondLoop) : Outcome BondLoop :=
  if l.bondedValidatorsCount = maxValidators then
    match l.validator with
    | none => .error (.panic .nilDereference)
    | some validator => do
        let store ← l.store.setCliffValidator validator l.store.pool
        return { l with store }
  else .ok l

/-- The loop over the owners in the by-power index.  `maxValidators - 1` is a `uint16`. -/
def loop (maxValidators : Fin (2 ^ 16)) (newValidator : Validator) :
    List Address → BondLoop → Outcome BondLoop
  | [], l => l.finish maxValidators
  | ownerAddr :: rest, l =>
    if (maxValidators - 1).val < l.bondedValidatorsCount then l.finish maxValidators
    else do
      let l ← l.next newValidator ownerAddr
      loop maxValidators newValidator rest l

end BondLoop

namespace Store

/-- The owners in the by-power index, from the largest key to the smallest. -/
def byPower (s : Store) : List Address := s.validatorsByPower.descending.map Prod.snd

/-- The kick at the end of `UpdateBondedValidators`, of nobody if there is no old cliff. -/
def kick (s : Store) : Option Address → Outcome Store
  | none => .ok s
  | some oldCliffValidatorAddr => do
      let validator ← s.getIndexed oldCliffValidatorAddr
      let (s, _) ← s.unbondValidator validator
      return s

def updateBondedValidators (s : Store) (newValidator : Validator) :
    Outcome (Store × Option Validator) := do
  let l ← BondLoop.loop s.params.maxValidators newValidator s.byPower ⟨s, 0, none, false, none⟩
  let store ← l.store.kick (if l.kickCliffValidator then s.validatorCliff else none)
  return (store, l.updatedVal)

/-! ## Updating one validator -/

/-- `Status` of the old record in `UpdateValidator`; the zero record of a validator not found is
unbonded. -/
def oldStatus (old : Option Validator) : BondStatus := old.elim .unbonded Validator.status

/-- The first step of `UpdateValidator`: a revoked validator that was bonded is unbonded. -/
def unbondRevoked (s : Store) (old : Option Validator) (validator : Validator) :
    Outcome (Store × Validator) :=
  if validator.revoked ∧ oldStatus old = .bonded then do
    let (s, validator) ← s.unbondValidator validator
    return (s.clearCliffValidator, validator)
  else .ok (s, validator)

/-- A validator that was bonded keeps the height and counter it has; any other gets new ones. -/
def stamp (ctx : Ctx) (s : Store) (old : Option Validator) (validator : Validator) :
    Store × Validator :=
  match old with
  | some oldValidator =>
    if oldValidator.status = .bonded then
      (s, validator.stamped oldValidator.bondHeight oldValidator.bondIntraTxCounter)
    else fresh
  | none => fresh
where
  fresh : Store × Validator :=
    (s.setIntraTxCounter (int16 (s.intraTxCounter + 1)),
      validator.stamped ctx.blockHeight s.intraTxCounter)

/-- The by-power index without the key of the old record, both taken at the pool `pool`. -/
def unindex (s : Store) (old : Option Validator) (pool : Pool) : Outcome Store :=
  match old with
  | none => .ok s
  | some oldValidator => do
      let key ← getValidatorsByPowerIndexKey oldValidator pool
      return { s with validatorsByPower := s.validatorsByPower.erase key }

/-- `UpdateValidator` up to the point where the by-power index has the validator's new key: the
store, the local copy of the validator and that key.  The keys are taken at the pool the function
was entered with. -/
def rerank (ctx : Ctx) (s : Store) (validator : Validator) :
    Outcome (Store × Validator × Bytes) := do
  let pool := s.pool
  let old := s.getValidator validator.owner
  let (s, validator) ← s.unbondRevoked old validator
  let (s, validator) := s.stamp ctx old validator
  let s ← s.unindex old pool
  let valPower ← getValidatorsByPowerIndexKey validator pool
  return ({ s with validatorsByPower := s.validatorsByPower.insert valPower validator.owner },
    validator, valPower)

/-- `powerIncreasing` in `UpdateValidator`. -/
def powerIncreasing (old : Option Validator) (validator : Validator) : Bool :=
  match old with
  | none => false
  | some oldValidator => decide (oldValidator.poolShares.bonded < validator.poolShares.bonded)

/-- The first efficiency case: already bonded and power increasing. -/
def onlyIncreases (old : Option Validator) (validator : Validator) : Prop :=
  powerIncreasing old validator = true ∧ validator.revoked = false ∧ oldStatus old = .bonded

instance (old : Option Validator) (validator : Validator) :
    Decidable (onlyIncreases old validator) :=
  inferInstanceAs (Decidable (_ ∧ _ ∧ _))

/-- The second efficiency case: not bonded before and ranked below the cliff. -/
def belowCliff (s : Store) (old : Option Validator) (valPower : Bytes) : Prop :=
  oldStatus old = .unbonded ∧ ∃ cliffPower ∈ s.validatorPowerCliff, valPower < cliffPower

instance (s : Store) (old : Option Validator) (valPower : Bytes) :
    Decidable (s.belowCliff old valPower) :=
  inferInstanceAs (Decidable (_ ∧ _))

def updateValidator (ctx : Ctx) (s : Store) (validator : Validator) :
    Outcome (Store × Validator) := do
  let old := s.getValidator validator.owner
  let (s, validator, valPower) ← s.rerank ctx validator
  if onlyIncreases old validator then
    let s := s.setTendermintUpdate validator.owner validator.wrspValidator
    return (s.setValidator validator, validator)
  else if s.belowCliff old valPower then
    return (s.setValidator validator, validator)
  else
    let (s, updatedVal) ← s.updateBondedValidators validator
    let validator := updatedVal.getD validator
    return (s.setValidator validator, validator)

/-! ## Reading the validator sets -/

/-- `Keeper.GetValidatorsBonded`: the sanity check comes before the record is read. -/
def getValidatorsBonded (s : Store) : Outcome (List Validator) :=
  go 0 (s.validatorsBonded.toList.map Prod.snd)
where
  go (i : ℕ) : List Address → Outcome (List Validator)
    | [] => .ok []
    | address :: rest =>
      if (s.params.maxValidators - 1).val < i then
        .error (.panic .maxValidatorsLessThanBonded)
      else do
        let validator ← s.getIndexed address
        let validators ← go (i + 1) rest
        return validator :: validators

/-- `Keeper.GetValidatorsByPower`: bonded validators only are returned and counted. -/
def getValidatorsByPower (s : Store) : Outcome (List Validator) :=
  go 0 s.byPower
where
  go (i : ℕ) : List Address → Outcome (List Validator)
    | [] => .ok []
    | address :: rest =>
      if (s.params.maxValidators - 1).val < i then .ok []
      else do
        let validator ← s.getIndexed address
        if validator.status = .bonded then
          let validators ← go (i + 1) rest
          return validator :: validators
        else go i rest

def getTendermintUpdates (s : Store) : List WRSPValidator := s.tendermintUpdates.toList.map Prod.snd

def clearTendermintUpdates (s : Store) : Store := { s with tendermintUpdates := ∅ }

end Store

end Tepleton.Stake
