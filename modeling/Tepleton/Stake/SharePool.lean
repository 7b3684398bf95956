import Tepleton.Stake.Types.Shares

/-!
# Validators that share a pool

Any number of validators work on one pool: tokens are delegated and withdrawn, statuses change and
pool shares are taken away.  Starting from the initial pool, token counts and shares stay sound
along every run (`SharePool.Sound`), a delegation can be withdrawn at once for exactly the tokens
that went in, and a withdrawal in parts gains at most the rounding of each part.  A change of status
rounds once.  Rounding can also empty a pool that still has shares, and then its rate is zero
(`delegation_divides_by_zero`).
-/

namespace Tepleton.Stake

open Lib

/-- Some validators and their common pool. -/
structure SharePool (n : ℕ) where
  validators : Fin n → Validator
  pool : Pool

/-- An operation on one of the validators and the pool. -/
inductive ShareOp (n : ℕ)
  | addTokensFromDel (i : Fin n) (amount : ℤ)
  | removeDelShares (i : Fin n) (shares : ℚ)
  | updateStatus (i : Fin n) (status : BondStatus)
  | removePoolShares (i : Fin n) (shares : ℚ)

namespace SharePool

variable {n : ℕ}

/-- New validators and the initial pool with some loose tokens. -/
def genesis (owner : Fin n → Address) (pubKey : Fin n → PubKey) (description : Fin n → Description)
    (looseTokens : ℤ) : SharePool n :=
  ⟨fun i => newValidator (owner i) (pubKey i) (description i), { initialPool with looseTokens }⟩

/-- One validator and the pool are replaced. -/
def put (x : SharePool n) (i : Fin n) (v : Validator) (pool : Pool) : SharePool n :=
  ⟨Function.update x.validators i v, pool⟩

/-- The operation is carried out. -/
def step (x : SharePool n) : ShareOp n → Outcome (SharePool n)
  | .addTokensFromDel i amount => do
      let (v, pool, _) ← (x.validators i).addTokensFromDel x.pool amount
      return x.put i v pool
  | .removeDelShares i shares => do
      let (v, pool, _) ← (x.validators i).removeDelShares x.pool shares
      return x.put i v pool
  | .updateStatus i status => do
      let (v, pool) ← (x.validators i).updateStatus x.pool status
      return x.put i v pool
  | .removePoolShares i shares => do
      let (v, pool, _) ← (x.validators i).removePoolShares x.pool shares
      return x.put i v pool

/-- An `int64` amount that is not negative, or shares that the validator has. -/
def Allowed (x : SharePool n) : ShareOp n → Prop
  | .addTokensFromDel _ amount => 0 ≤ amount ∧ amount < 2 ^ 63
  | .removeDelShares i shares => 0 ≤ shares ∧ shares ≤ (x.validators i).delegatorShares
  | .updateStatus _ _ => True
  | .removePoolShares i shares => 0 ≤ shares ∧ shares ≤ (x.validators i).poolShares.amount

instance (x : SharePool n) (op : ShareOp n) : Decidable (x.Allowed op) :=
  match op with
  | .addTokensFromDel _ _ => inferInstanceAs (Decidable (_ ∧ _))
  | .removeDelShares _ _ => inferInstanceAs (Decidable (_ ∧ _))
  | .updateStatus _ _ => inferInstanceAs (Decidable True)
  | .removePoolShares _ _ => inferInstanceAs (Decidable (_ ∧ _))

/-- The pool and the validators are sound, and the shares of the pool are those of the
validators. -/
structure Sound (supply : ℤ) (x : SharePool n) : Prop where
  pool : x.pool.Sound supply
  validators : ∀ i, (x.validators i).Sound
  addUp : ∀ status, x.pool.shares status = ∑ i, (x.validators i).sharesIn status

/-! ## What one operation keeps -/

variable {supply : ℤ} {x : SharePool n}

theorem Sound.soundIn (hx : x.Sound supply) (i : Fin n) :
    (x.validators i).SoundIn supply x.pool where
  toSound := hx.validators i
  pool := hx.pool
  held := by
    rw [hx.addUp]
    have hself : (x.validators i).sharesIn (x.validators i).status =
        (x.validators i).poolShares.amount := if_pos rfl
    rw [← hself]
    refine Finset.single_le_sum (f := fun j => (x.validators j).sharesIn _) ?_ (Finset.mem_univ i)
    intro j _
    unfold Validator.sharesIn
    split_ifs
    · exact (hx.validators j).amount
    · exact le_rfl

theorem sum_sharesIn_put (x : SharePool n) (i : Fin n) (v : Validator) (pool : Pool)
    (status : BondStatus) :
    ∑ j, ((x.put i v pool).validators j).sharesIn status =
      ∑ j, (x.validators j).sharesIn status - (x.validators i).sharesIn status +
        v.sharesIn status := by
  have hupdate : (fun j => ((x.put i v pool).validators j).sharesIn status) =
      Function.update (fun j => (x.validators j).sharesIn status) i (v.sharesIn status) := by
    funext j
    simp only [put, Function.update_apply]
    split_ifs <;> rfl
  have hrest := Finset.add_sum_erase Finset.univ (fun j => (x.validators j).sharesIn status)
    (Finset.mem_univ i)
  rw [hupdate, Finset.sum_update_of_mem (Finset.mem_univ i), ← Finset.erase_eq]
  linarith

theorem Sound.put (hx : x.Sound supply) {i : Fin n} {v : Validator} {pool : Pool}
    (hsound : v.Sound ∧ pool.Sound supply) (hmoves : (x.validators i).MovesWith x.pool v pool) :
    (x.put i v pool).Sound supply where
  pool := hsound.2
  validators j := by
    simp only [SharePool.put, Function.update_apply]
    split_ifs
    · exact hsound.1
    · exact hx.validators j
  addUp status := by
    rw [sum_sharesIn_put, ← hx.addUp]
    exact hmoves status

theorem Sound.step {x' : SharePool n} {op : ShareOp n} (hx : x.Sound supply)
    (hallowed : x.Allowed op) (h : x.step op = .ok x') : x'.Sound supply := by
  cases op with
  | addTokensFromDel i amount =>
    simp only [SharePool.step, bind_eq_ok, pure_eq_ok, Prod.exists] at h
    obtain ⟨v, pool, issued, hadd, rfl⟩ := h
    exact hx.put ((hx.soundIn i).addTokensFromDel hallowed.1 hallowed.2 hadd)
      (Validator.addTokensFromDel_eq_ok hadd).2
  | removeDelShares i shares =>
    simp only [SharePool.step, bind_eq_ok, pure_eq_ok, Prod.exists] at h
    obtain ⟨v, pool, created, hremove, rfl⟩ := h
    exact hx.put ((hx.soundIn i).removeDelShares hallowed.1 hallowed.2 hremove)
      (Validator.removeDelShares_eq_ok hremove).2
  | updateStatus i status =>
    simp only [SharePool.step, bind_eq_ok, pure_eq_ok, Prod.exists] at h
    obtain ⟨v, pool, hupdate, rfl⟩ := h
    exact hx.put ((hx.soundIn i).updateStatus hupdate) (Validator.updateStatus_eq_ok hupdate).2
  | removePoolShares i shares =>
    simp only [SharePool.step, bind_eq_ok, pure_eq_ok, Prod.exists] at h
    obtain ⟨v, pool, removed, hremove, rfl⟩ := h
    exact hx.put ((hx.soundIn i).removePoolShares hallowed.1 hallowed.2 hremove)
      (Validator.removePoolShares_eq_ok hremove).2

theorem genesis_sound (owner : Fin n → Address) (pubKey : Fin n → PubKey)
    (description : Fin n → Description) {looseTokens : ℤ} (hloose : 0 ≤ looseTokens)
    (hfits : looseTokens < 2 ^ 63) :
    (genesis owner pubKey description looseTokens).Sound looseTokens where
  pool := by
    refine ⟨hloose, ?_, by simp [genesis, initialPool, Pool.total], hfits, ?_, ?_⟩ <;>
      intro status <;> cases status <;> simp [genesis, initialPool, Pool.tokens, Pool.shares]
  validators i := ⟨le_rfl, le_rfl, fun _ => rfl⟩
  addUp status := by
    have hnone : ∀ i, ((genesis owner pubKey description looseTokens).validators i).sharesIn status =
        0 := fun i => by
      unfold Validator.sharesIn
      split_ifs <;> rfl
    simp only [hnone, Finset.sum_const_zero]
    cases status <;> rfl

/-! ## Runs -/

namespace Example

/-- Two validators and a hundred loose tokens. -/
def start : SharePool 2 :=
  genesis (fun i => [if i = 0 then 1 else 2]) (fun i => [if i = 0 then 101 else 102])
    (fun _ => ⟨"v", "", "", ""⟩) 100

/-- Tokens come and go, a validator is bonded and slashed, and rounding moves its rate. -/
def ops : List (ShareOp 2) :=
  [.addTokensFromDel 0 10, .addTokensFromDel 1 7, .updateStatus 0 .bonded, .removePoolShares 0 (3 / 2),
    .removeDelShares 1 (7 / 3), .addTokensFromDel 0 4, .updateStatus 1 .unbonding]

end Example

section Runs

variable {owner : Fin n → Address} {pubKey : Fin n → PubKey} {description : Fin n → Description}
  {looseTokens : ℤ} {history : List (SharePool n × ShareOp n)} {x : SharePool n}

theorem Sound.run (hloose : 0 ≤ looseTokens) (hfits : looseTokens < 2 ^ 63)
    (hrun : Run SharePool.step (genesis owner pubKey description looseTokens) history x)
    (hallowed : Run.Meets SharePool.Allowed history) : x.Sound looseTokens :=
  Run.invariant (fun x => x.Sound looseTokens) (genesis_sound _ _ _ hloose hfits)
    (fun hx ha h => hx.step ha h) hrun hallowed

/-- Along every run that does not panic the token supply stays what it was, no token count and no
share amount becomes negative, and the shares of each status are those of the validators of that
status. -/
theorem share_pool_stays_sound (hloose : 0 ≤ looseTokens) (hfits : looseTokens < 2 ^ 63)
    (hrun : Run SharePool.step (genesis owner pubKey description looseTokens) history x)
    (hallowed : Run.Meets SharePool.Allowed history) :
    x.pool.tokenSupply = (genesis owner pubKey description looseTokens).pool.tokenSupply ∧
      (0 ≤ x.pool.looseTokens ∧ ∀ status, 0 ≤ x.pool.tokens status) ∧
      (∀ status, 0 ≤ x.pool.shares status) ∧
      (∀ i, 0 ≤ (x.validators i).poolShares.amount ∧ 0 ≤ (x.validators i).delegatorShares) ∧
      ∀ status, x.pool.shares status =
        ∑ i with (x.validators i).status = status, (x.validators i).poolShares.amount := by
  have hx := Sound.run hloose hfits hrun hallowed
  refine ⟨?_, ⟨hx.pool.loose, hx.pool.tokens⟩, hx.pool.shares, ?_, ?_⟩
  · rw [hx.pool.tokenSupply_eq, (genesis_sound _ _ _ hloose hfits).pool.tokenSupply_eq]
  · intro i
    exact ⟨(hx.validators i).amount, (hx.validators i).delegatorShares⟩
  · intro status
    rw [hx.addUp, Finset.sum_filter]
    rfl

theorem share_pool_stays_sound_example :
    ∃ x, Run SharePool.step Example.start (Run.historyOf SharePool.step Example.start Example.ops) x ∧
      x.pool.tokenSupply = 100 ∧ x.pool.bondedShares =
        ∑ i with (x.validators i).status = .bonded, (x.validators i).poolShares.amount := by
  obtain ⟨x, hrun, -⟩ := Run.of_leadsTo SharePool.step Example.start Example.ops (fun _ => true)
    (by decide +kernel)
  have hsound := share_pool_stays_sound (by decide) (by decide) hrun (by decide +kernel)
  exact ⟨x, hrun, hsound.1, hsound.2.2.2.2 .bonded⟩

/-- A delegation changes no exchange rate, and withdrawing the shares it issued returns exactly the
tokens delegated and restores validator and pool. -/
theorem delegate_then_withdraw_exact (hloose : 0 ≤ looseTokens) (hfits : looseTokens < 2 ^ 63)
    (hrun : Run SharePool.step (genesis owner pubKey description looseTokens) history x)
    (hallowed : Run.Meets SharePool.Allowed history) (i : Fin n) {amount : ℤ}
    (hamount : 0 < amount) (hint64 : amount < 2 ^ 63) {v : Validator} {pool : Pool} {issued : ℚ}
    (h : (x.validators i).addTokensFromDel x.pool amount = .ok (v, pool, issued)) :
    (∀ status, x.pool.shares status ≠ 0 → pool.shareExRate status = x.pool.shareExRate status) ∧
      ((x.validators i).delegatorShares ≠ 0 →
        v.delegatorShareExRate pool = (x.validators i).delegatorShareExRate x.pool) ∧
      v.removeDelShares pool issued = .ok (x.validators i, x.pool, amount) := by
  have hv := (Sound.run hloose hfits hrun hallowed).soundIn i
  refine ⟨?_, fun _ => hv.delegatorShareExRate_afterDel hamount hint64 h,
    hv.removeDelShares_afterDel hamount hint64 h⟩
  intro status _
  obtain ⟨-, hrate, -, hpool, -, -⟩ := hv.addTokensFromDel_ok hamount.le hint64 h
  rw [hpool]
  exact hv.pool.shareExRate_afterAdd hamount.le hrate status

theorem delegate_then_withdraw_exact_example :
    ∃ x v pool issued, Run SharePool.step Example.start
        (Run.historyOf SharePool.step Example.start Example.ops) x ∧
      (x.validators 0).addTokensFromDel x.pool 5 = .ok (v, pool, issued) ∧
      v.removeDelShares pool issued = .ok (x.validators 0, x.pool, 5) := by
  obtain ⟨x, hrun, htest⟩ := Run.of_leadsTo SharePool.step Example.start Example.ops
    (fun x => passes (fun _ => true) ((x.validators 0).addTokensFromDel x.pool 5))
    (by decide +kernel)
  obtain ⟨⟨v, pool, issued⟩, hadd, -⟩ := exists_of_passes htest
  exact ⟨x, v, pool, issued, hrun, hadd, (delegate_then_withdraw_exact (by decide) (by decide) hrun
    (by decide +kernel) 0 (by decide) (by decide) hadd).2.2⟩

/-- A delegator who withdraws shares in parts, whatever the parts, gets at most what the shares were
worth and half a token for each part. -/
theorem split_withdrawal_at_most (hloose : 0 ≤ looseTokens) (hfits : looseTokens < 2 ^ 63)
    (hrun : Run SharePool.step (genesis owner pubKey description looseTokens) history x)
    (hallowed : Run.Meets SharePool.Allowed history) (i : Fin n) {parts : List ℚ}
    (hparts : ∀ part ∈ parts, 0 < part) (hheld : parts.sum ≤ (x.validators i).delegatorShares)
    {v : Validator} {pool : Pool} {created : ℤ}
    (h : (x.validators i).removeDelSharesAll x.pool parts = .ok (v, pool, created)) :
    created ≤ (x.validators i).worthOf x.pool parts.sum + parts.length / 2 :=
  ((Sound.run hloose hfits hrun hallowed).soundIn i).removeDelSharesAll_gain
    (fun part hpart => (hparts part hpart).le) hheld h

/-- The shares of a small delegator in ten parts, each worth a little more than half a token. -/
def tenParts : List ℚ := List.replicate 10 (3 / 5)

theorem split_withdrawal_at_most_example :
    ∃ x v pool created, Run SharePool.step Example.start
        (Run.historyOf SharePool.step Example.start [.addTokensFromDel 0 100]) x ∧
      (x.validators 0).removeDelSharesAll x.pool tenParts = .ok (v, pool, created) ∧
      created ≤ (x.validators 0).worthOf x.pool tenParts.sum + tenParts.length / 2 := by
  obtain ⟨x, hrun, htest⟩ := Run.of_leadsTo SharePool.step Example.start [.addTokensFromDel 0 100]
    (fun x => passes (fun _ => decide (tenParts.sum ≤ (x.validators 0).delegatorShares))
      ((x.validators 0).removeDelSharesAll x.pool tenParts)) (by decide +kernel)
  obtain ⟨⟨v, pool, created⟩, hremove, htest⟩ := exists_of_passes htest
  exact ⟨x, v, pool, created, hrun, hremove, split_withdrawal_at_most (by decide) (by decide) hrun
    (by decide +kernel) 0 (by decide +kernel) (of_decide_eq_true htest) hremove⟩

/-- Shares worth six tokens, withdrawn in ten parts, return ten. -/
theorem split_withdrawal_gains :
    ∃ x v pool created, Run SharePool.step Example.start
        (Run.historyOf SharePool.step Example.start [.addTokensFromDel 0 100]) x ∧
      (∀ part ∈ tenParts, 0 < part ∧ part.den ≤ 10 ^ 8) ∧
      tenParts.sum ≤ (x.validators 0).delegatorShares ∧
      (x.validators 0).removeDelSharesAll x.pool tenParts = .ok (v, pool, created) ∧
      ⌈(x.validators 0).worthOf x.pool tenParts.sum⌉ < created := by
  obtain ⟨x, hrun, htest⟩ := Run.of_leadsTo SharePool.step Example.start [.addTokensFromDel 0 100]
    (fun x => passes (fun result : Validator × Pool × ℤ => decide (result.2.2 = 10 ∧
        tenParts.sum ≤ (x.validators 0).delegatorShares ∧
          (x.validators 0).worthOf x.pool tenParts.sum = 6))
      ((x.validators 0).removeDelSharesAll x.pool tenParts)) (by decide +kernel)
  obtain ⟨⟨v, pool, created⟩, hremove, htest⟩ := exists_of_passes htest
  obtain ⟨hreturned, hheld, hworth⟩ := of_decide_eq_true htest
  refine ⟨x, v, pool, created, hrun, by decide +kernel, hheld, hremove, ?_⟩
  obtain rfl : created = 10 := hreturned
  rw [hworth]
  decide +kernel

/-- None of the operations divides by zero as long as the pools whose rates it divides by have tokens
for their shares, and a delegation as long as the validator has pool shares for its delegator
shares. -/
theorem divides_iff (hloose : 0 ≤ looseTokens) (hfits : looseTokens < 2 ^ 63)
    (hrun : Run SharePool.step (genesis owner pubKey description looseTokens) history x)
    (hallowed : Run.Meets SharePool.Allowed history) (i : Fin n) :
    (∀ amount, 0 < amount → amount ≤ x.pool.looseTokens →
      (¬ DividesByZero ((x.validators i).addTokensFromDel x.pool amount) ↔
        x.pool.Backed (x.validators i).status ∧ x.pool.Backed .bonded ∧
          ((x.validators i).delegatorShares = 0 ∨ (x.validators i).poolShares.amount ≠ 0))) ∧
    (∀ shares, 0 < shares → shares ≤ (x.validators i).delegatorShares →
      (¬ DividesByZero ((x.validators i).removeDelShares x.pool shares) ↔
        (x.validators i).status = .bonded ∨
          x.pool.Backed .bonded ∧ x.pool.Backed (x.validators i).status)) ∧
    (∀ status, ¬ DividesByZero ((x.validators i).updateStatus x.pool status) ↔
      (x.validators i).status = status ∨ x.pool.Backed status) ∧
    (¬ DividesByZero ((x.validators i).equivalentBondedShares x.pool) ↔
      (x.validators i).status = .bonded ∨ x.pool.Backed .bonded) := by
  have hv := (Sound.run hloose hfits hrun hallowed).soundIn i
  exact ⟨fun amount hpos hle => hv.addTokensFromDel_divides_iff hpos hle,
    fun shares hpos hle => hv.removeDelShares_divides_iff hpos hle, hv.updateStatus_divides_iff,
    (x.validators i).equivalentBondedShares_divides_iff x.pool⟩

theorem divides_iff_example :
    ∃ x, Run SharePool.step Example.start (Run.historyOf SharePool.step Example.start Example.ops) x ∧
      ¬ DividesByZero ((x.validators 0).addTokensFromDel x.pool 5) := by
  obtain ⟨x, hrun, htest⟩ := Run.of_leadsTo SharePool.step Example.start Example.ops
    (fun x => decide (5 ≤ x.pool.looseTokens ∧ x.pool.Backed (x.validators 0).status ∧
      x.pool.Backed .bonded ∧
        ((x.validators 0).delegatorShares = 0 ∨ (x.validators 0).poolShares.amount ≠ 0)))
    (by decide +kernel)
  obtain ⟨henough, hbacked⟩ := of_decide_eq_true htest
  exact ⟨x, hrun, ((divides_iff (by decide) (by decide) hrun (by decide +kernel) 0).1 5 (by decide)
    henough).mpr hbacked⟩

/-- Withdrawing three fifths of the only share returns the only token.  Two fifths of a share are left
in a pool without tokens, and the next delegation divides by zero. -/
theorem delegation_divides_by_zero :
    ∃ x, Run SharePool.step Example.start (Run.historyOf SharePool.step Example.start
        [.addTokensFromDel 0 1, .removeDelShares 0 (3 / 5)]) x ∧
      Run.Meets SharePool.Allowed (Run.historyOf SharePool.step Example.start
        [.addTokensFromDel 0 1, .removeDelShares 0 (3 / 5)]) ∧
      5 ≤ x.pool.looseTokens ∧ DividesByZero ((x.validators 0).addTokensFromDel x.pool 5) := by
  obtain ⟨x, hrun, htest⟩ := Run.of_leadsTo SharePool.step Example.start
    [.addTokensFromDel 0 1, .removeDelShares 0 (3 / 5)] (fun x => decide (5 ≤ x.pool.looseTokens) &&
      failsWith (.panic .divisionByZero) ((x.validators 0).addTokensFromDel x.pool 5))
    (by decide +kernel)
  rw [Bool.and_eq_true, decide_eq_true_eq] at htest
  exact ⟨x, hrun, by decide +kernel, htest.1, error_of_failsWith htest.2⟩

/-! ## Changes of status -/

theorem Sound.sum_tokens {supply : ℤ} (hx : x.Sound supply) (i : Fin n) (pool : Pool) :
    ∑ j with j ≠ i ∧ (x.validators j).status = (x.validators i).status,
        (x.validators j).poolShares.tokens pool =
      pool.shareExRate (x.validators i).status *
        (x.pool.shares (x.validators i).status - (x.validators i).poolShares.amount) := by
  have hshares : x.pool.shares (x.validators i).status = (x.validators i).poolShares.amount +
      ∑ j with j ≠ i ∧ (x.validators j).status = (x.validators i).status,
        (x.validators j).poolShares.amount := by
    rw [hx.addUp, ← Finset.add_sum_erase Finset.univ _ (Finset.mem_univ i), ← Finset.filter_filter,
      Finset.filter_ne', Finset.sum_filter]
    congr 1
    exact if_pos rfl
  rw [hshares, add_sub_cancel_left, Finset.mul_sum]
  refine Finset.sum_congr rfl fun j hj => ?_
  rw [PoolShares.tokens]
  exact congrArg (fun status => pool.shareExRate status * _) (Finset.mem_filter.mp hj).2.2

/-- A change of status rounds the value of the validator once, to the nearest integer, and leaves the
others in the pool it goes to alone; the others in the pool it comes from gain or lose together at most
half a token. -/
theorem status_change_rounds_once (hloose : 0 ≤ looseTokens) (hfits : looseTokens < 2 ^ 63)
    (hrun : Run SharePool.step (genesis owner pubKey description looseTokens) history x)
    (hallowed : Run.Meets SharePool.Allowed history) (i : Fin n) {status : BondStatus}
    (hnew : status ≠ (x.validators i).status) {v : Validator} {pool : Pool}
    (h : (x.validators i).updateStatus x.pool status = .ok (v, pool)) :
    v.poolShares.tokens pool = nearestEven ((x.validators i).poolShares.tokens x.pool) ∧
      (∀ j ≠ i, (x.validators j).status = status →
        (x.validators j).poolShares.tokens pool = (x.validators j).poolShares.tokens x.pool) ∧
      |∑ j with j ≠ i ∧ (x.validators j).status = (x.validators i).status,
          (x.validators j).poolShares.tokens pool -
        ∑ j with j ≠ i ∧ (x.validators j).status = (x.validators i).status,
          (x.validators j).poolShares.tokens x.pool| ≤ 1 / 2 := by
  have hx := Sound.run hloose hfits hrun hallowed
  have hv := hx.soundIn i
  obtain ⟨hpool, hremoved, -, hrate, rfl, rfl⟩ := hv.updateStatus_ok (Ne.symm hnew) h
  have hsame := hpool.shareExRate_afterAdd hremoved hrate
  have hdestination := Pool.Sound.shareExRate_afterRemove_of_ne x.pool (Ne.symm hnew)
    (x.validators i).poolShares.amount
    (evaluateBig (x.pool.shareExRate (x.validators i).status * (x.validators i).poolShares.amount))
  refine ⟨?_, ?_, ?_⟩
  · rw [PoolShares.tokens, hsame, mul_div_cancel₀ _ hrate, evaluateBig_eq_nearestEven]
    rfl
  · rintro j - rfl
    rw [PoolShares.tokens, PoolShares.tokens]
    exact congrArg (· * _) ((hsame _).trans hdestination)
  · rw [hx.sum_tokens, hx.sum_tokens, hsame]
    by_cases hall : (x.validators i).poolShares.amount = x.pool.shares (x.validators i).status
    · rw [hall, sub_self, mul_zero, mul_zero, sub_self, abs_zero]
      norm_num
    · rw [hv.pool.shareExRate_afterRemove _ hall, add_sub_cancel_left, abs_sub_comm]
      exact abs_evaluateBig_sub_le _

theorem status_change_rounds_once_example :
    ∃ x v pool, Run SharePool.step Example.start
        (Run.historyOf SharePool.step Example.start Example.ops) x ∧
      (x.validators 0).updateStatus x.pool .unbonding = .ok (v, pool) ∧
      v.poolShares.tokens pool = nearestEven ((x.validators 0).poolShares.tokens x.pool) := by
  obtain ⟨x, hrun, htest⟩ := Run.of_leadsTo SharePool.step Example.start Example.ops
    (fun x => decide (BondStatus.unbonding ≠ (x.validators 0).status) &&
      passes (fun _ => true) ((x.validators 0).updateStatus x.pool .unbonding)) (by decide +kernel)
  rw [Bool.and_eq_true, decide_eq_true_eq] at htest
  obtain ⟨⟨v, pool⟩, hupdate, -⟩ := exists_of_passes htest.2
  exact ⟨x, v, pool, hrun, hupdate, (status_change_rounds_once (by decide) (by decide) hrun
    (by decide +kernel) 0 htest.1 hupdate).1⟩

end Runs

end SharePool

end Tepleton.Stake
