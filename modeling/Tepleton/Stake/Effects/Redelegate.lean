import Tepleton.Stake.Types.Sound
import Tepleton.Stake.Effects.Frame
import Tepleton.Stake.Steps

/-!
# What a redelegation does to accounts and pool

`BeginRedelegation` unbonds from one validator, which frees tokens without paying anybody, and then
delegates to another, which takes the same number of tokens from the delegator's account.  The
tokens of the pool are moved as they should be, and the account is charged for them once more: it
stays as it is exactly if the shares are worth no token.
-/

namespace Tepleton.Stake

open Lib

namespace Store

/-- No account has gained or lost anything. -/
def AccountsKept (s s' : Store) : Prop :=
  ∀ (a : Address) (denom : String), (Bank.getCoins s'.accounts a).denomTotal denom =
    (Bank.getCoins s.accounts a).denomTotal denom

/-- `removed` tokens leave the part of the pool that the shares of `v` are in. -/
def TokensLeave (s s₁ : Store) (v : Validator) (removed : ℤ) : Prop :=
  s₁.pool.tokens v.status = int64 (s.pool.tokens v.status - removed) ∧
    s₁.pool.looseTokens = int64 (s.pool.looseTokens + removed)

/-- `added` tokens enter the part of the pool that the shares of `v` are in. -/
def TokensEnter (s s₁ : Store) (v : Validator) (added : ℤ) : Prop :=
  s₁.pool.tokens v.status = int64 (s.pool.tokens v.status + added) ∧
    s₁.pool.looseTokens = int64 (s.pool.looseTokens - added)

/-- The two halves of a redelegation, each up to its update of a validator: unbonding in `s`, where
`removed` tokens leave the pool for the source `v`, and delegating in `s₃`, where `added` tokens
enter it for the target `w`. -/
structure RedelegationHalves (ctx : Ctx) (s : Store) (delegatorAddr src dst : Address) (shares : ℚ)
    (v w : Validator) (removed added : ℤ) (s₃ s₄ : Store) : Prop where
  source : s.getValidator src = some v
  unbonds : ∃ s₁ v₁, s.prepareUnbond ctx delegatorAddr src shares = .ok (s₁, v₁, removed) ∧
    s.TokensLeave s₁ v removed
  between : s.unbond ctx delegatorAddr src shares = .ok (s₃, removed)
  target : s₃.getValidator dst = some w
  delegates : ∃ w₁ issued, s₃.prepareDelegate ctx delegatorAddr ⟨s₃.params.bondDenom, added⟩ w =
    .ok (s₄, w₁, issued) ∧ s₃.TokensEnter s₄ w added

end Store

/-! ## Unbonding and delegating -/

variable {ctx : Ctx} {s s' s₁ : Store} {delegatorAddr validatorAddr : Address} {shares : ℚ}

theorem prepareUnbond_tokens {v : Validator} {removed : ℤ}
    (h : s.prepareUnbond ctx delegatorAddr validatorAddr shares = .ok (s₁, v, removed)) :
    ∃ w, s.getValidator validatorAddr = some w ∧ s.TokensLeave s₁ w removed ∧
      removed = roundInt64 (w.returnedFor s.pool shares) ∧
      s₁.pool.tokenSupply = s.pool.tokenSupply := by
  obtain ⟨d, w, -, -, hw, pool, hremove, -, rfl⟩ := prepareUnbond_eq_ok h
  have hcreated := Validator.removeDelShares_created hremove
  simp only [Validator.removeDelShares, bind_eq_ok, pure_eq_ok, Prod.exists, Prod.mk.injEq] at hremove
  obtain ⟨exRate, -, sold, -, pool₁, tokens, hremove, -, rfl, rfl⟩ := hremove
  have hsupply := Pool.tokenSupply_removeShares hremove
  obtain ⟨-, -, rfl⟩ := Pool.removeShares_eq_ok hremove
  refine ⟨w, hw, ⟨?_, ?_⟩, hcreated, hsupply⟩
  · exact (Pool.tokens_withPart _ _ _ _ _ _).trans (if_pos rfl)
  · exact Pool.looseTokens_withPart _ _ _ _ _

theorem unbond_tokenSupply {amount : ℤ}
    (h : s.unbond ctx delegatorAddr validatorAddr shares = .ok (s', amount)) :
    s'.pool.tokenSupply = s.pool.tokenSupply := by
  simp only [Store.unbond, bind_eq_ok, pure_eq_ok, Prod.exists, Prod.mk.injEq] at h
  obtain ⟨s₁, v, amount', hprepare, s₂, v', hupdate, s₃, hremove, rfl, rfl⟩ := h
  obtain ⟨w, -, -, -, hsupply⟩ := prepareUnbond_tokens hprepare
  rw [(removeIfEmpty_frame hremove).1, (Store.Shifted.updateValidator hupdate).tokenSupply, hsupply]

theorem prepareDelegate_tokens {coin : Coin} {v v₁ : Validator} {issued : ℚ}
    (h : s.prepareDelegate ctx delegatorAddr coin v = .ok (s₁, v₁, issued)) :
    s.TokensEnter s₁ v coin.amount ∧ s₁.pool.tokenSupply = s.pool.tokenSupply ∧
      ∃ payer, ∀ a denom, (Bank.getCoins s₁.accounts a).denomTotal denom =
        (Bank.getCoins s.accounts a).denomTotal denom -
          if a = payer ∧ coin.denom = denom then coin.amount else 0 := by
  simp only [Store.prepareDelegate, bind_eq_ok, pure_eq_ok, Prod.exists, Prod.mk.injEq] at h
  obtain ⟨accounts, hsubtract, amount, hamount, v', pool, issued', hadd, rfl, rfl, rfl⟩ := h
  obtain ⟨rfl, -, -⟩ := toInt64_eq_ok hamount
  simp only [Validator.addTokensFromDel, bind_eq_ok, pure_eq_ok, Prod.exists, Prod.mk.injEq] at hadd
  obtain ⟨exRate, -, pool₁, poolShares, hadd, bondedShares, -, issued', -, -, rfl, -⟩ := hadd
  have hsupply := Pool.tokenSupply_addTokens hadd
  obtain ⟨-, -, -, rfl⟩ := Pool.addTokens_eq_ok hadd
  generalize (s.getDelegation delegatorAddr v.owner).getD ⟨delegatorAddr, v.owner, 0, 0⟩ = d
    at hsubtract ⊢
  refine ⟨⟨?_, ?_⟩, hsupply, d.delegatorAddr, fun a denom => ?_⟩
  · exact (Pool.tokens_withPart _ _ _ _ _ _).trans (if_pos rfl)
  · exact Pool.looseTokens_withPart _ _ _ _ _
  · refine (Bank.denomTotal_subtractCoins hsubtract a denom).trans ?_
    by_cases ha : a = d.delegatorAddr <;> simp [ha]

/-! ## The two halves together -/

/-- The redelegation is charged to an account, in the bond denomination. -/
theorem beginRedelegation_effects {src dst : Address}
    (h : s.beginRedelegation ctx delegatorAddr src dst shares = .ok s') :
    ∃ v w removed s₃ s₄, s.RedelegationHalves ctx delegatorAddr src dst shares v w removed removed
        s₃ s₄ ∧ removed = roundInt64 (v.returnedFor s.pool shares) ∧
      s'.pool.tokenSupply = s.pool.tokenSupply ∧
      ∃ payer, ∀ a denom, (Bank.getCoins s'.accounts a).denomTotal denom =
        (Bank.getCoins s.accounts a).denomTotal denom -
          if a = payer ∧ s.params.bondDenom = denom then removed else 0 := by
  unfold Store.beginRedelegation at h
  split_ifs at h
  simp only [bind_eq_ok, Prod.exists] at h
  obtain ⟨s₃, removed, hunbond, h⟩ := h
  have hinner := unbond_inner hunbond
  have hsupply := unbond_tokenSupply hunbond
  cases hw : s₃.getValidator dst with
  | none =>
    simp only [hw, throw_eq_ok] at h
  | some w =>
    simp only [hw, bind_eq_ok, pure_eq_ok, Prod.exists] at h
    obtain ⟨s₅, issued, hdelegate, rfl⟩ := h
    simp only [Store.delegate, bind_eq_ok, pure_eq_ok, Prod.exists, Prod.mk.injEq] at hdelegate
    obtain ⟨s₄, w₁, issued', hprepare, s₆, w', hupdate, rfl, rfl⟩ := hdelegate
    obtain ⟨henter, hsupply', payer, hpayer⟩ := prepareDelegate_tokens hprepare
    have hshift := Store.Shifted.updateValidator hupdate
    have hfirst := hunbond
    simp only [Store.unbond, bind_eq_ok, pure_eq_ok, Prod.exists, Prod.mk.injEq] at hfirst
    obtain ⟨s₁, v₁, removed', hprepare', -, -, -, -, -, -, rfl⟩ := hfirst
    obtain ⟨v, hv, hleave, hremoved, -⟩ := prepareUnbond_tokens hprepare'
    refine ⟨v, w, removed', s₃, s₄, ⟨hv, ⟨s₁, v₁, hprepare', hleave⟩, hunbond, hw,
      ⟨w₁, issued', hprepare, henter⟩⟩, hremoved, ?_, payer, fun a denom => ?_⟩
    · exact (hshift.tokenSupply.trans hsupply').trans hsupply
    · have hcoins := hpayer a denom
      rw [hinner.accounts, hinner.params] at hcoins
      rw [← hshift.accounts] at hcoins
      exact hcoins

/-- The shares of a delegation to `src` are worth no token, after rounding. -/
def WorthNothing (s : Store) (src : Address) (shares : ℚ) : Prop :=
  ∀ v ∈ s.getValidator src, roundInt64 (v.returnedFor s.pool shares) = 0

instance (s : Store) (src : Address) (shares : ℚ) : Decidable (WorthNothing s src shares) :=
  inferInstanceAs (Decidable (∀ v ∈ s.getValidator src, _))

/-- A redelegation that succeeds leaves the token supply alone and puts into the pool for the target
what it takes out of it for the source.  It leaves all accounts alone exactly if the shares are worth
nothing. -/
theorem redelegation_moves_stake_only_iff {src dst : Address}
    (h : s.beginRedelegation ctx delegatorAddr src dst shares = .ok s') :
    (s.AccountsKept s' ∧ s'.pool.tokenSupply = s.pool.tokenSupply ∧
      ∃ v w removed added s₃ s₄, removed = added ∧
        s.RedelegationHalves ctx delegatorAddr src dst shares v w removed added s₃ s₄) ↔
      WorthNothing s src shares := by
  obtain ⟨v, w, removed, s₃, s₄, halves, hremoved, hsupply, payer, hpayer⟩ :=
    beginRedelegation_effects h
  have hworth : WorthNothing s src shares ↔ removed = 0 := by
    rw [WorthNothing, halves.source, hremoved]
    simp
  rw [hworth]
  constructor
  · rintro ⟨hkept, -, -⟩
    have hcharged := hpayer payer s.params.bondDenom
    rw [hkept payer s.params.bondDenom, if_pos ⟨rfl, rfl⟩] at hcharged
    linarith
  · rintro rfl
    refine ⟨fun a denom => ?_, hsupply, v, w, 0, 0, s₃, s₄, rfl, halves⟩
    rw [hpayer a denom, ite_self, sub_zero]

namespace Example

/-- Two validators with one delegator each, and room for both. -/
def twoValidators : List Op := [create 1 10, create 2 5]

end Example

theorem redelegation_moves_stake_only_iff_example :
    ∃ st s', Run step (Example.genesis 2)
        (Run.historyOf step (Example.genesis 2) Example.twoValidators) st ∧
      st.store.beginRedelegation st.ctx [1] [1] [2] (1 / 4) = .ok s' ∧ st.store.AccountsKept s' := by
  obtain ⟨st, hrun, htest⟩ := Run.of_leadsTo step (Example.genesis 2) Example.twoValidators
    (fun st => passes (fun _ => decide (WorthNothing st.store [1] (1 / 4)))
      (st.store.beginRedelegation st.ctx [1] [1] [2] (1 / 4))) (by decide +kernel)
  obtain ⟨s', hredelegate, htest⟩ := exists_of_passes htest
  have hworth := of_decide_eq_true htest
  exact ⟨st, s', hrun, hredelegate, ((redelegation_moves_stake_only_iff hredelegate).mpr hworth).1⟩

/-- Redelegating three tokens takes three more from the delegator's account. -/
theorem redelegation_charges_account :
    ∃ st s', Run step (Example.genesis 2)
        (Run.historyOf step (Example.genesis 2) Example.twoValidators) st ∧
      st.store.beginRedelegation st.ctx [1] [1] [2] 3 = .ok s' ∧
      (Bank.getCoins st.store.accounts [1]).denomTotal defaultParams.bondDenom = 990 ∧
      (Bank.getCoins s'.accounts [1]).denomTotal defaultParams.bondDenom = 987 ∧
      ¬ st.store.AccountsKept s' := by
  obtain ⟨st, hrun, htest⟩ := Run.of_leadsTo step (Example.genesis 2) Example.twoValidators
    (fun st => passes (fun s' => decide (
        (Bank.getCoins st.store.accounts [1]).denomTotal defaultParams.bondDenom = 990 ∧
          (Bank.getCoins s'.accounts [1]).denomTotal defaultParams.bondDenom = 987))
      (st.store.beginRedelegation st.ctx [1] [1] [2] 3)) (by decide +kernel)
  obtain ⟨s', hredelegate, htest⟩ := exists_of_passes htest
  obtain ⟨hbefore, hafter⟩ := of_decide_eq_true htest
  refine ⟨st, s', hrun, hredelegate, hbefore, hafter, fun hkept => ?_⟩
  have hsame := hkept [1] defaultParams.bondDenom
  rw [hbefore, hafter] at hsame
  cases hsame

end Tepleton.Stake
