import Tepleton.Types.Rational

/-!
# Shares and the pool: `x/stake/types/shares.go` and `x/stake/types/pool.go`

The pool keeps, for each bond status, a number of tokens and the shares issued for them; a share is
worth `tokens / shares`.  The source has one method per status.  They differ in the two fields they
touch and are defined here once, by the status, with the source's methods as instances.  One slip
is common to all three `removeShares*` methods: the sanity check after the subtraction looks at the
unbonded tokens, whichever pool the tokens were taken from.
-/

namespace Tepleton.Stake

open Lib

inductive BondStatus
  | unbonded
  | unbonding
  | bonded
  deriving DecidableEq, Repr

instance : Fintype BondStatus where
  elems := {.unbonded, .unbonding, .bonded}
  complete := by
    intro status
    cases status <;> simp

/-- `PoolShares`: shares held by a validator in the pool of its status. -/
structure PoolShares where
  status : BondStatus
  amount : ℚ
  deriving DecidableEq, Repr

/-- `Pool`.  The two fields for commission and fee accounting, which nothing reads, are left
out. -/
structure Pool where
  looseTokens : ℤ
  unbondedTokens : ℤ
  unbondingTokens : ℤ
  bondedTokens : ℤ
  unbondedShares : ℚ
  unbondingShares : ℚ
  bondedShares : ℚ
  inflationLastTime : ℤ
  inflation : ℚ
  deriving DecidableEq, Repr

def initialPool : Pool := ⟨0, 0, 0, 0, 0, 0, 0, 0, 7 / 100⟩

namespace Pool

/-- The tokens of the pool of a status. -/
def tokens (p : Pool) : BondStatus → ℤ
  | .unbonded => p.unbondedTokens
  | .unbonding => p.unbondingTokens
  | .bonded => p.bondedTokens

/-- The shares of the pool of a status. -/
def shares (p : Pool) : BondStatus → ℚ
  | .unbonded => p.unbondedShares
  | .unbonding => p.unbondingShares
  | .bonded => p.bondedShares

/-- The pool with new tokens and shares for one status and new loose tokens. -/
def withPart (p : Pool) (status : BondStatus) (tokens : ℤ) (shares : ℚ) (loose : ℤ) : Pool :=
  match status with
  | .unbonded => { p with unbondedTokens := tokens, unbondedShares := shares, looseTokens := loose }
  | .unbonding =>
    { p with unbondingTokens := tokens, unbondingShares := shares, looseTokens := loose }
  | .bonded => { p with bondedTokens := tokens, bondedShares := shares, looseTokens := loose }

def tokenSupply (p : Pool) : ℤ :=
  int64 (p.looseTokens + p.unbondedTokens + p.unbondingTokens + p.bondedTokens)

/-- The exchange rate of tokens per share of a status, one when no share is issued. -/
def shareExRate (p : Pool) (status : BondStatus) : ℚ :=
  if p.shares status = 0 then 1 else p.tokens status / p.shares status

def bondedShareExRate (p : Pool) : ℚ := p.shareExRate .bonded

def unbondingShareExRate (p : Pool) : ℚ := p.shareExRate .unbonding

def unbondedShareExRate (p : Pool) : ℚ := p.shareExRate .unbonded

/-- Tokens move from the loose ones into the pool of `status`, against new shares. -/
def addTokens (status : BondStatus) (p : Pool) (amount : ℤ) : Outcome (Pool × PoolShares) := do
  let issuedSharesAmount ← quo amount (p.shareExRate status)
  let p2 := p.withPart status (int64 (p.tokens status + amount))
    (p.shares status + issuedSharesAmount) (int64 (p.looseTokens - amount))
  if p2.looseTokens < 0 then throw (.panic .looseTokensNegative)
  return (p2, ⟨status, issuedSharesAmount⟩)

def addTokensUnbonded (p : Pool) (amount : ℤ) : Outcome (Pool × PoolShares) :=
  addTokens .unbonded p amount

def addTokensUnbonding (p : Pool) (amount : ℤ) : Outcome (Pool × PoolShares) :=
  addTokens .unbonding p amount

def addTokensBonded (p : Pool) (amount : ℤ) : Outcome (Pool × PoolShares) :=
  addTokens .bonded p amount

/-- Shares of `status` are given up for the tokens they are worth, rounded, which become loose. -/
def removeShares (status : BondStatus) (p : Pool) (shares : ℚ) : Outcome (Pool × ℤ) := do
  let removedTokens := roundInt64 (p.shareExRate status * shares)
  let p2 := p.withPart status (int64 (p.tokens status - removedTokens))
    (p.shares status - shares) (int64 (p.looseTokens + removedTokens))
  -- all three methods of the source look at the unbonded tokens here
  if p2.unbondedTokens < 0 then throw (.panic .tokensNegative)
  return (p2, removedTokens)

def removeSharesUnbonded (p : Pool) (shares : ℚ) : Outcome (Pool × ℤ) :=
  removeShares .unbonded p shares

def removeSharesUnbonding (p : Pool) (shares : ℚ) : Outcome (Pool × ℤ) :=
  removeShares .unbonding p shares

def removeSharesBonded (p : Pool) (shares : ℚ) : Outcome (Pool × ℤ) :=
  removeShares .bonded p shares

/-! ## What the pool operations change -/

@[simp] theorem shares_withPart (p : Pool) (status other : BondStatus) (tokens : ℤ) (shares : ℚ)
    (loose : ℤ) : (p.withPart status tokens shares loose).shares other =
      if status = other then shares else p.shares other := by
  cases status <;> cases other <;> rfl

@[simp] theorem tokens_withPart (p : Pool) (status other : BondStatus) (tokens : ℤ) (shares : ℚ)
    (loose : ℤ) : (p.withPart status tokens shares loose).tokens other =
      if status = other then tokens else p.tokens other := by
  cases status <;> cases other <;> rfl

@[simp] theorem looseTokens_withPart (p : Pool) (status : BondStatus) (tokens : ℤ) (shares : ℚ)
    (loose : ℤ) : (p.withPart status tokens shares loose).looseTokens = loose := by
  cases status <;> rfl

theorem addTokens_eq_ok {status : BondStatus} {p p' : Pool} {amount : ℤ} {issued : PoolShares}
    (h : p.addTokens status amount = .ok (p', issued)) :
    p.shareExRate status ≠ 0 ∧ issued = ⟨status, amount / p.shareExRate status⟩ ∧
      0 ≤ int64 (p.looseTokens - amount) ∧
      p' = p.withPart status (int64 (p.tokens status + amount))
        (p.shares status + issued.amount) (int64 (p.looseTokens - amount)) := by
  simp only [addTokens, bind_eq_ok, quo_eq_ok] at h
  obtain ⟨amount', ⟨hrate, rfl⟩, h⟩ := h
  split_ifs at h with hloose
  · cases h
  · simp only [pure_eq_ok, Prod.mk.injEq] at h
    obtain ⟨rfl, rfl⟩ := h
    simp only [looseTokens_withPart, not_lt] at hloose
    exact ⟨hrate, rfl, hloose, rfl⟩

theorem removeShares_eq_ok {status : BondStatus} {p p' : Pool} {shares : ℚ} {removed : ℤ}
    (h : p.removeShares status shares = .ok (p', removed)) :
    removed = roundInt64 (p.shareExRate status * shares) ∧ 0 ≤ p'.unbondedTokens ∧
      p' = p.withPart status (int64 (p.tokens status - removed)) (p.shares status - shares)
        (int64 (p.looseTokens + removed)) := by
  simp only [removeShares] at h
  split_ifs at h with hneg
  · cases h
  · simp only [pure_eq_ok, Prod.mk.injEq] at h
    obtain ⟨rfl, rfl⟩ := h
    exact ⟨rfl, not_lt.mp hneg, rfl⟩

end Pool

namespace PoolShares

def bonded (s : PoolShares) : ℚ := if s.status = .bonded then s.amount else 0

/-- `PoolShares.Tokens`: the tokens that the shares are worth. -/
def tokens (s : PoolShares) (p : Pool) : ℚ := p.shareExRate s.status * s.amount

/-- The amount of shares of status `target` that is worth as much as `s`. -/
def amountAs (s : PoolShares) (p : Pool) (target : BondStatus) : Outcome ℚ :=
  if s.status = target then .ok s.amount
  else do
    let exRate ← quo (p.shareExRate s.status) (p.shareExRate target)
    return s.amount * exRate

def toUnbonded (s : PoolShares) (p : Pool) : Outcome PoolShares := do
  return ⟨.unbonded, ← s.amountAs p .unbonded⟩

def toUnbonding (s : PoolShares) (p : Pool) : Outcome PoolShares := do
  return ⟨.unbonding, ← s.amountAs p .unbonding⟩

/-- `PoolShares.ToBonded`, which labels its result unbonded. -/
def toBonded (s : PoolShares) (p : Pool) : Outcome PoolShares := do
  return ⟨.unbonded, ← s.amountAs p .bonded⟩

theorem amountAs_eq_ok {s : PoolShares} {p : Pool} {target : BondStatus} {x : ℚ} :
    s.amountAs p target = .ok x ↔ (s.status = target ∧ s.amount = x) ∨
      (s.status ≠ target ∧ p.shareExRate target ≠ 0 ∧
        s.amount * (p.shareExRate s.status / p.shareExRate target) = x) := by
  unfold amountAs
  split_ifs with hsame
  · simp [hsame]
  · simp only [bind_eq_ok, pure_eq_ok, quo_eq_ok, hsame, false_and, false_or, not_false_eq_true,
      ne_eq, true_and]
    constructor
    · rintro ⟨rate, ⟨htarget, rfl⟩, hx⟩
      exact ⟨htarget, hx⟩
    · rintro ⟨htarget, hx⟩
      exact ⟨_, ⟨htarget, rfl⟩, hx⟩

theorem toBonded_eq_ok {s s' : PoolShares} {p : Pool} (h : s.toBonded p = .ok s') :
    s.amountAs p .bonded = .ok s'.amount := by
  simp only [toBonded, bind_eq_ok, pure_eq_ok] at h
  obtain ⟨x, hx, rfl⟩ := h
  exact hx

end PoolShares

end Tepleton.Stake
