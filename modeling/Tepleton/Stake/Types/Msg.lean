import Tepleton.Stake.Types.Validator
import Tepleton.Types.Coin

/-!
# Records, parameters and messages of the stake module

`x/stake/types/delegation.go`, `params.go`, `msg.go` and the errors they return.  `validateBasic`
is what the application runs on a message before handing it to its handler.  A nil address is not
a value of `Address`, so the checks for it are gone.
-/

namespace Tepleton.Stake

structure Delegation where
  delegatorAddr : Address
  validatorAddr : Address
  shares : ℚ
  height : ℤ
  deriving DecidableEq, Repr

structure UnbondingDelegation where
  delegatorAddr : Address
  validatorAddr : Address
  creationHeight : ℤ
  minTime : ℤ
  initialBalance : Coin
  balance : Coin
  deriving DecidableEq, Repr

structure Redelegation where
  delegatorAddr : Address
  validatorSrcAddr : Address
  validatorDstAddr : Address
  creationHeight : ℤ
  minTime : ℤ
  initialBalance : Coin
  balance : Coin
  sharesSrc : ℚ
  sharesDst : ℚ
  deriving DecidableEq, Repr

instance neZero_uint16 : NeZero (2 ^ 16) := ⟨by decide⟩

/-- `Params`; `MaxValidators` is a `uint16`. -/
structure Params where
  inflationRateChange : ℚ
  inflationMax : ℚ
  inflationMin : ℚ
  goalBonded : ℚ
  unbondingTime : ℤ
  maxValidators : Fin (2 ^ 16)
  bondDenom : String
  deriving DecidableEq, Repr

def defaultParams : Params :=
  { inflationRateChange := 13 / 100, inflationMax := 20 / 100, inflationMin := 7 / 100,
    goalBonded := 67 / 100, unbondingTime := 60 * 60 * 24 * 3, maxValidators := 100,
    bondDenom := "steak" }

/-! ## Errors -/

def errNoValidatorFound : SdkError := ⟨101, "validator does not exist for that address"⟩

def errValidatorAlreadyExists : SdkError :=
  ⟨101, "validator already exist, cannot re-create validator"⟩

def errValidatorRevoked : SdkError := ⟨101, "validator for this address is currently revoked"⟩

def errBadDenom : SdkError := ⟨102, "invalid coin denomination"⟩

def errBadDelegationAmount : SdkError := ⟨102, "amount must be > 0"⟩

def errNoDelegatorForAddress : SdkError := ⟨102, "delegator does not contain this delegation"⟩

/-- `ErrNotEnoughDelegationShares`, with the shares as `big.Rat` prints them. -/
def errNotEnoughDelegationShares (shares : ℚ) : SdkError :=
  ⟨102, "not enough shares only have " ++ toString shares.num ++ "/" ++ toString shares.den⟩

def errBadSharesAmount : SdkError := ⟨102, "shares must be > 0"⟩

def errBadSharesPrecision : SdkError :=
  ⟨102, "shares denominator must be < 100000000, try reducing the number of decimal points"⟩

def errNotMature (operation descriptor : String) (got min : ℤ) : SdkError :=
  ⟨4, operation ++ " is not mature requires a min " ++ descriptor ++ " of " ++ toString got ++
    ", currently it is " ++ toString min⟩

def errNoUnbondingDelegation : SdkError := ⟨102, "no unbonding delegation found"⟩

def errNoRedelegation : SdkError := ⟨102, "no redelegation found"⟩

def errBadRedelegationDst : SdkError := ⟨102, "redelegation validator not found"⟩

def errTransitiveRedelegation : SdkError :=
  ⟨102, "redelegation to this validator already in progress, first redelegation to this " ++
    "validator must complete before next redelegation"⟩

/-! ## Messages -/

structure MsgCreateValidator where
  description : Description
  validatorAddr : Address
  pubKey : PubKey
  selfDelegation : Coin

structure MsgEditValidator where
  description : Description
  validatorAddr : Address

structure MsgDelegate where
  delegatorAddr : Address
  validatorAddr : Address
  bond : Coin

structure MsgBeginUnbonding where
  delegatorAddr : Address
  validatorAddr : Address
  sharesAmount : ℚ

structure MsgCompleteUnbonding where
  delegatorAddr : Address
  validatorAddr : Address

structure MsgBeginRedelegate where
  delegatorAddr : Address
  validatorSrcAddr : Address
  validatorDstAddr : Address
  sharesAmount : ℚ

structure MsgCompleteRedelegate where
  delegatorAddr : Address
  validatorSrcAddr : Address
  validatorDstAddr : Address

/-- The check shared by the two messages that delegate coins. -/
def validateAmount (coin : Coin) : Outcome Unit :=
  if 0 < coin.amount then .ok () else .error (.error errBadDelegationAmount)

/-- The check shared by the two messages that give up shares. -/
def validateShares (shares : ℚ) : Outcome Unit :=
  if shares ≤ 0 then .error (.error errBadSharesAmount)
  else if 10 ^ 8 < shares.den then .error (.error errBadSharesPrecision)
  else .ok ()

theorem ne_zero_of_validateShares {shares : ℚ} {u : Unit} (h : validateShares shares = .ok u) :
    shares ≠ 0 := by
  rintro rfl
  cases h

/-- The check shared by the two messages that carry a description. -/
def validateDescription (description : Description) (text : String) : Outcome Unit :=
  if description = ⟨"", "", "", ""⟩ then .error (.error ⟨103, text⟩) else .ok ()

def MsgCreateValidator.validateBasic (msg : MsgCreateValidator) : Outcome Unit := do
  validateAmount msg.selfDelegation
  validateDescription msg.description "description must be included"

def MsgEditValidator.validateBasic (msg : MsgEditValidator) : Outcome Unit :=
  validateDescription msg.description "transaction must include some information to modify"

def MsgDelegate.validateBasic (msg : MsgDelegate) : Outcome Unit := validateAmount msg.bond

def MsgBeginUnbonding.validateBasic (msg : MsgBeginUnbonding) : Outcome Unit :=
  validateShares msg.sharesAmount

def MsgBeginRedelegate.validateBasic (msg : MsgBeginRedelegate) : Outcome Unit :=
  validateShares msg.sharesAmount

end Tepleton.Stake
