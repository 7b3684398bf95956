import Tepleton.Stake.Types.Pool

/-!
# Validators: `x/stake/types/validator.go`

A validator holds shares of the pool of its status, against which it has issued delegator shares.
The functions here compute on one validator and one pool; storing the results is the keeper's
business.
-/

namespace Tepleton.Stake

open Lib

structure Description where
  moniker : String
  identity : String
  website : String
  details : String
  deriving DecidableEq, Repr

/-- `Validator`.  The commission, proposer reward and fee fields, which nothing reads, are left
out. -/
structure Validator where
  owner : Address
  pubKey : PubKey
  revoked : Bool
  poolShares : PoolShares
  delegatorShares : ℚ
  description : Description
  bondHeight : ℤ
  bondIntraTxCounter : ℤ
  deriving DecidableEq, Repr

/-- `wrsp.Validator`: an entry of the validator set handed to the consensus engine. -/
structure WRSPValidator where
  pubKey : PubKey
  power : ℤ
  deriving DecidableEq, Repr

def errDescriptionLength (descriptor : String) (got max : ℕ) : SdkError :=
  ⟨101, "bad description length for " ++ descriptor ++ ", got length " ++ toString got ++
    ", max is " ++ toString max⟩

namespace Description

def ensureLength (d : Description) : Outcome Description :=
  if 70 < d.moniker.utf8ByteSize then
    .error (.error (errDescriptionLength "moniker" d.moniker.utf8ByteSize 70))
  else if 3000 < d.identity.utf8ByteSize then
    .error (.error (errDescriptionLength "identity" d.identity.utf8ByteSize 3000))
  else if 140 < d.website.utf8ByteSize then
    .error (.error (errDescriptionLength "website" d.website.utf8ByteSize 140))
  else if 280 < d.details.utf8ByteSize then
    .error (.error (errDescriptionLength "details" d.details.utf8ByteSize 280))
  else .ok d

/-- `Description.UpdateDescription`: it is the old description `d` whose fields are compared with
the placeholder. -/
def updateDescription (d d2 : Description) : Outcome Description :=
  ensureLength
    { moniker := if d.moniker = "[do-not-modify]" then d.moniker else d2.moniker
      identity := if d.identity = "[do-not-modify]" then d.identity else d2.identity
      website := if d.website = "[do-not-modify]" then d.website else d2.website
      details := if d.details = "[do-not-modify]" then d.details else d2.details }

end Description

def newValidator (owner : Address) (pubKey : PubKey) (description : Description) : Validator :=
  { owner, pubKey, revoked := false, poolShares := ⟨.unbonded, 0⟩, delegatorShares := 0,
    description, bondHeight := 0, bondIntraTxCounter := 0 }

namespace Validator

def status (v : Validator) : BondStatus := v.poolShares.status

def wrspValidator (v : Validator) : WRSPValidator := ⟨v.pubKey, roundInt64 v.poolShares.bonded⟩

def wrspValidatorZero (v : Validator) : WRSPValidator := ⟨v.pubKey, 0⟩

/-- The validator without its pool shares: what bonding and unbonding leave alone. -/
def core (v : Validator) : Validator := { v with poolShares := ⟨.unbonded, 0⟩ }

/-- The validator without its pool shares and its place in line: what an update leaves alone. -/
def identity (v : Validator) : Validator :=
  { v.core with bondHeight := 0, bondIntraTxCounter := 0 }

/-- The validator with `amount` as its pool shares, in the pool they are in. -/
def withAmount (v : Validator) (amount : ℚ) : Validator :=
  { v with poolShares := ⟨v.status, amount⟩ }

def updateStatus (v : Validator) (pool : Pool) (newStatus : BondStatus) :
    Outcome (Validator × Pool) :=
  if v.status = newStatus then .ok (v, pool)
  else do
    let (pool, tokens) ← pool.removeShares v.status v.poolShares.amount
    let (pool, shares) ← pool.addTokens newStatus tokens
    return ({ v with poolShares := shares }, pool)

def removePoolShares (v : Validator) (pool : Pool) (poolShares : ℚ) :
    Outcome (Validator × Pool × ℤ) := do
  let (pool, tokens) ← pool.removeShares v.status poolShares
  return (v.withAmount (v.poolShares.amount - poolShares), pool, tokens)

def equivalentBondedShares (v : Validator) (pool : Pool) : Outcome ℚ := do
  return (← v.poolShares.toBonded pool).amount

def delegatorShareExRate (v : Validator) (pool : Pool) : Outcome ℚ :=
  if v.delegatorShares = 0 then .ok 1
  else do
    let eqBondedShares ← v.poolShares.toBonded pool
    quo eqBondedShares.amount v.delegatorShares

def addTokensFromDel (v : Validator) (pool : Pool) (amount : ℤ) :
    Outcome (Validator × Pool × ℚ) := do
  let exRate ← v.delegatorShareExRate pool
  let (pool, poolShares) ← pool.addTokens v.status amount
  let equivalentBondedShares ← poolShares.toBonded pool
  let issuedDelegatorShares ← quo equivalentBondedShares.amount exRate
  return ({ v.withAmount (v.poolShares.amount + poolShares.amount) with
      delegatorShares := v.delegatorShares + issuedDelegatorShares }, pool, issuedDelegatorShares)

def removeDelShares (v : Validator) (pool : Pool) (delShares : ℚ) :
    Outcome (Validator × Pool × ℤ) := do
  let exRate ← v.delegatorShareExRate pool
  let eqBondedSharesToRemove : PoolShares := ⟨.bonded, exRate * delShares⟩
  let shares ← eqBondedSharesToRemove.amountAs pool v.status
  let (pool, createdCoins) ← pool.removeShares v.status shares
  return ({ v.withAmount (v.poolShares.amount - shares) with
      delegatorShares := v.delegatorShares - delShares }, pool, createdCoins)

variable {v w v' : Validator} {pool pool' : Pool}

theorem identity_eq_of_core (h : v.core = w.core) : v.identity = w.identity := by
  rw [identity, identity, h]

theorem owner_eq_of_identity (h : v.identity = w.identity) : v.owner = w.owner := by
  have howner := congrArg Validator.owner h
  exact howner

theorem pubKey_eq_of_identity (h : v.identity = w.identity) : v.pubKey = w.pubKey := by
  have hpubKey := congrArg Validator.pubKey h
  exact hpubKey

theorem revoked_eq_of_identity (h : v.identity = w.identity) : v.revoked = w.revoked := by
  have hrevoked := congrArg Validator.revoked h
  exact hrevoked

theorem delegatorShares_eq_of_identity (h : v.identity = w.identity) :
    v.delegatorShares = w.delegatorShares := by
  have hshares := congrArg Validator.delegatorShares h
  exact hshares

/-! ## Shares move between validator and pool together -/

/-- The shares the validator holds of the pool of a status. -/
def sharesIn (v : Validator) (status : BondStatus) : ℚ :=
  if v.status = status then v.poolShares.amount else 0

theorem sharesIn_congr (h : v.poolShares = w.poolShares) (status : BondStatus) :
    v.sharesIn status = w.sharesIn status := by
  unfold sharesIn Validator.status
  rw [h]

/-- From `v` and `pool` to `v'` and `pool'`, what the validator holds of each pool changes by as
much as the pool. -/
def MovesWith (v : Validator) (pool : Pool) (v' : Validator) (pool' : Pool) : Prop :=
  ∀ status, pool'.shares status = pool.shares status - v.sharesIn status + v'.sharesIn status

theorem movesWith_withPart {tokens loose : ℤ} {shares : ℚ} (hstatus : v'.status = v.status)
    (hshares : shares - pool.shares v.status = v'.poolShares.amount - v.poolShares.amount) :
    v.MovesWith pool v' (pool.withPart v.status tokens shares loose) := by
  intro status
  rw [Pool.shares_withPart, sharesIn, sharesIn, hstatus]
  split_ifs with hold
  · subst hold
    linarith
  · ring

theorem updateStatus_eq_ok {newStatus : BondStatus}
    (h : v.updateStatus pool newStatus = .ok (v', pool')) :
    v' = { v with poolShares := ⟨newStatus, v'.poolShares.amount⟩ } ∧ v.MovesWith pool v' pool' := by
  unfold updateStatus at h
  split_ifs at h with hsame
  · cases h
    refine ⟨?_, fun status => by ring⟩
    rw [← hsame]
    rfl
  · simp only [bind_eq_ok, pure_eq_ok, Prod.exists, Prod.mk.injEq] at h
    obtain ⟨pool₁, tokens, hremove, pool₂, issued, hadd, rfl, rfl⟩ := h
    obtain ⟨-, -, rfl⟩ := Pool.removeShares_eq_ok hremove
    obtain ⟨-, rfl, -, rfl⟩ := Pool.addTokens_eq_ok hadd
    refine ⟨rfl, ?_⟩
    intro status
    simp only [Pool.shares_withPart, sharesIn]
    have hstatus : ∀ x : PoolShares, ({ v with poolShares := x } : Validator).status = x.status :=
      fun _ => rfl
    simp only [hstatus]
    by_cases hold : v.status = status <;> by_cases hnew : newStatus = status <;>
      simp_all

theorem updateStatus_zero {status : BondStatus} (hamount : v.poolShares.amount = 0)
    (h : v.updateStatus pool status = .ok (v', pool')) : v'.poolShares.amount = 0 := by
  unfold updateStatus at h
  split_ifs at h
  · cases h
    exact hamount
  · simp only [bind_eq_ok, pure_eq_ok, Prod.exists, Prod.mk.injEq] at h
    obtain ⟨pool₁, tokens, hremove, pool₂, issued, hadd, rfl, rfl⟩ := h
    obtain ⟨rfl, -, -⟩ := Pool.removeShares_eq_ok hremove
    obtain ⟨-, rfl, -, -⟩ := Pool.addTokens_eq_ok hadd
    simp [hamount, roundInt64, evaluateBig_zero, int64]

theorem removePoolShares_eq_ok {shares : ℚ} {removed : ℤ}
    (h : v.removePoolShares pool shares = .ok (v', pool', removed)) :
    v' = v.withAmount v'.poolShares.amount ∧ v.MovesWith pool v' pool' := by
  simp only [removePoolShares, bind_eq_ok, pure_eq_ok, Prod.exists, Prod.mk.injEq] at h
  obtain ⟨pool₁, tokens, hremove, rfl, rfl, rfl⟩ := h
  obtain ⟨-, -, rfl⟩ := Pool.removeShares_eq_ok hremove
  refine ⟨rfl, movesWith_withPart rfl ?_⟩
  simp only [withAmount]
  ring

theorem addTokensFromDel_eq_ok {amount : ℤ} {issued : ℚ}
    (h : v.addTokensFromDel pool amount = .ok (v', pool', issued)) :
    v' = { v.withAmount v'.poolShares.amount with delegatorShares := v.delegatorShares + issued } ∧
      v.MovesWith pool v' pool' := by
  simp only [addTokensFromDel, bind_eq_ok, pure_eq_ok, Prod.exists, Prod.mk.injEq] at h
  obtain ⟨exRate, -, pool₁, poolShares, hadd, bondedShares, -, issued', -, rfl, rfl, rfl⟩ := h
  obtain ⟨-, rfl, -, rfl⟩ := Pool.addTokens_eq_ok hadd
  refine ⟨rfl, movesWith_withPart rfl ?_⟩
  simp only [withAmount]
  ring

theorem removeDelShares_eq_ok {delShares : ℚ} {created : ℤ}
    (h : v.removeDelShares pool delShares = .ok (v', pool', created)) :
    v' = { v.withAmount v'.poolShares.amount with
        delegatorShares := v.delegatorShares - delShares } ∧ v.MovesWith pool v' pool' := by
  simp only [removeDelShares, bind_eq_ok, pure_eq_ok, Prod.exists, Prod.mk.injEq] at h
  obtain ⟨exRate, -, shares, -, pool₁, tokens, hremove, rfl, rfl, rfl⟩ := h
  obtain ⟨-, -, rfl⟩ := Pool.removeShares_eq_ok hremove
  refine ⟨rfl, movesWith_withPart rfl ?_⟩
  simp only [withAmount]
  ring

/-- Giving up all delegator shares gives up all pool shares: both conversions are exact. -/
theorem removeDelShares_all {delShares : ℚ} {created : ℤ}
    (h : v.removeDelShares pool delShares = .ok (v', pool', created)) (hpos : delShares ≠ 0)
    (hempty : v'.delegatorShares = 0) : v'.poolShares.amount = 0 := by
  simp only [removeDelShares, delegatorShareExRate, bind_eq_ok, pure_eq_ok, Prod.exists,
    Prod.mk.injEq] at h
  obtain ⟨exRate, hexRate, shares, hshares, pool₁, tokens, -, rfl, rfl, rfl⟩ := h
  have hall : v.delegatorShares = delShares := sub_eq_zero.mp hempty
  simp only [hall, hpos, if_false, bind_eq_ok, quo_eq_ok, ne_eq, not_false_eq_true,
    true_and] at hexRate
  obtain ⟨bonded, hbonded, rfl⟩ := hexRate
  have hbonded := PoolShares.toBonded_eq_ok hbonded
  rw [div_mul_cancel₀ _ hpos] at hshares
  -- there to bonded shares and back again
  have hback : shares = v.poolShares.amount := by
    rw [PoolShares.amountAs_eq_ok] at hbonded hshares
    simp only [status] at hshares
    rcases hbonded with ⟨hstatus, hamount⟩ | ⟨hstatus, hrate, hamount⟩ <;>
      rcases hshares with ⟨hstatus', hshares⟩ | ⟨hstatus', hrate', hshares⟩
    · rw [← hshares, hamount]
    · exact absurd hstatus.symm hstatus'
    · exact absurd hstatus'.symm hstatus
    · rw [← hshares, ← hamount]
      field_simp
  exact sub_eq_zero.mpr hback.symm

end Validator

end Tepleton.Stake
