import Tepleton.Stake.Calls

/-!
# What the handlers do

The inversion lemmas for removal, creation, the messages that write unbonding records, and the end
of a block, with what they mean for well-formedness.
-/

namespace Tepleton.Stake

open Lib

/-! ## Updating and removing -/

variable {s s' : Store} {msg : MsgCreateValidator} {ctx : Ctx}

theorem Store.WellFormed.of_frame (hs : s.WellFormed) (hkeyed : s'.Keyed)
    (hframe : s'.updateFrame = s.updateFrame) : s'.WellFormed := by
  have hdelegations : s'.delegations = s.delegations := by
    have hfield := congrArg Store.delegations hframe
    exact hfield
  have hunbondings : s'.unbondingDelegations = s.unbondingDelegations := by
    have hfield := congrArg Store.unbondingDelegations hframe
    exact hfield
  have hredelegations : s'.redelegations = s.redelegations := by
    have hfield := congrArg Store.redelegations hframe
    exact hfield
  refine ⟨hkeyed, ?_, ?_, ?_⟩
  · rw [hdelegations]
    exact hs.delegations
  · rw [hunbondings]
    exact hs.unbondings
  · rw [hredelegations]
    exact hs.redelegations

theorem removeValidator_eq_ok {a : Address} {v : Validator} (hv : s.getValidator a = some v)
    (h : s.removeValidator a = .ok s') :
    ∃ key, getValidatorsByPowerIndexKey v s.pool = .ok key ∧ s' =
      { s with
        validators := s.validators.erase a
        validatorsByPubKey := s.validatorsByPubKey.erase v.pubKey
        validatorsByPower := s.validatorsByPower.erase key
        validatorsBonded := s.validatorsBonded.erase v.owner
        tendermintUpdates :=
          if s.validatorsBonded[v.owner]? = none then s.tendermintUpdates
          else s.tendermintUpdates.insert a v.wrspValidatorZero } := by
  simp only [Store.removeValidator, hv, bind_eq_ok] at h
  obtain ⟨key, hkey, h⟩ := h
  refine ⟨key, hkey, ?_⟩
  by_cases hbonded : s.validatorsBonded[v.owner]? = none
  · rw [if_pos hbonded, pure_eq_ok] at h
    rw [← h, if_pos hbonded, KVStore.erase_eq_self hbonded]
  · rw [if_neg hbonded, pure_eq_ok] at h
    rw [← h, if_neg hbonded]
    rfl

theorem removeValidator_getValidator {a : Address} {v : Validator} (hv : s.getValidator a = some v)
    (h : s.removeValidator a = .ok s') (b : Address) (u : Validator) :
    s'.getValidator b = some u ↔ a ≠ b ∧ s.getValidator b = some u := by
  obtain ⟨key, -, rfl⟩ := removeValidator_eq_ok hv h
  rw [Store.getValidator, KVStore.getElem?_erase, ite_eq_iff, or_iff_right (by simp)]
  rfl

theorem removeValidator_wellFormed {a : Address} {v : Validator} (hs : s.WellFormed)
    (hv : s.getValidator a = some v) (h : s.removeValidator a = .ok s') : s'.WellFormed := by
  have hget := removeValidator_getValidator hv h
  obtain ⟨key, -, rfl⟩ := removeValidator_eq_ok hv h
  exact ⟨fun b w hw => hs.validators b w ((hget b w).mp hw).2, hs.delegations, hs.unbondings,
    hs.redelegations⟩

/-! ## Creating, delegating and unbonding -/

theorem registerValidator_eq_ok {s₀ : Store} {w : Validator}
    (h : registerValidator s msg = .ok (s₀, w)) :
    s.getValidator msg.validatorAddr = none ∧ msg.selfDelegation.denom = s.params.bondDenom ∧
      w = newValidator msg.validatorAddr msg.pubKey msg.description ∧
      s₀ = (s.setValidator w).setValidatorByPubKeyIndex w := by
  unfold registerValidator at h
  cases hget : s.getValidator msg.validatorAddr with
  | some v =>
    rw [hget] at h
    cases h
  | none =>
    simp only [hget] at h
    split_ifs at h with hdenom
    cases h
    exact ⟨rfl, not_not.mp hdenom, rfl, rfl⟩

/-- A registration adds the new record. -/
theorem registerValidator_getValidator {s₀ : Store} {w : Validator}
    (h : registerValidator s msg = .ok (s₀, w)) (a : Address) (u : Validator) :
    s₀.getValidator a = some u ↔ a = w.owner ∧ u = w ∨ a ≠ w.owner ∧ s.getValidator a = some u := by
  obtain ⟨-, -, -, rfl⟩ := registerValidator_eq_ok h
  refine (Eq.congr_left (Store.getValidator_setValidator s w a)).trans ?_
  split_ifs with ha
  · simp [ha, eq_comm]
  · simp [Ne.symm ha]

theorem registerValidator_keeps {s₀ : Store} {w u : Validator} {a : Address}
    (h : registerValidator s msg = .ok (s₀, w)) (hu : s.getValidator a = some u) :
    s₀.getValidator a = some u := by
  refine (registerValidator_getValidator h a u).mpr (.inr ⟨?_, hu⟩)
  obtain ⟨hnone, -, rfl, -⟩ := registerValidator_eq_ok h
  rintro rfl
  cases hnone.symm.trans hu

theorem registerValidator_wellFormed {s₀ : Store} {w : Validator} (hs : s.WellFormed)
    (h : registerValidator s msg = .ok (s₀, w)) :
    s₀.WellFormed ∧ s₀.getValidator w.owner = some w := by
  obtain ⟨-, -, -, rfl⟩ := registerValidator_eq_ok h
  exact ⟨⟨hs.validators.insert w, hs.delegations, hs.unbondings, hs.redelegations⟩,
    KVStore.getElem?_insert_self _ _ _⟩

theorem handleMsgCreateValidator_eq_ok (hs : s.WellFormed)
    (h : handleMsgCreateValidator ctx s msg = .ok s') :
    ∃ s₀ w s₁ v v', registerValidator s msg = .ok (s₀, w) ∧
      prepareCreateValidator ctx s msg = .ok (s₁, v) ∧ Changed s₀ s₁ w v ∧
      s₁.updateValidator ctx v = .ok (s', v') := by
  simp only [handleMsgCreateValidator, Store.delegate, bind_eq_ok, pure_eq_ok, Prod.exists,
    Prod.mk.injEq] at h
  obtain ⟨s₀, w, hregister, s₂, issued, ⟨s₁, v, issued', hprepare, s₃, v', hupdate, rfl, rfl⟩, rfl⟩ :=
    h
  obtain ⟨hs₀, hw⟩ := registerValidator_wellFormed hs hregister
  refine ⟨s₀, w, s₁, v, v', hregister, ?_, prepareDelegate_changed hs₀ hw hprepare, hupdate⟩
  simp only [prepareCreateValidator, bind_eq_ok, pure_eq_ok, Prod.exists]
  exact ⟨s₀, w, hregister, s₁, v, issued', hprepare, rfl⟩

theorem handleMsgDelegate_eq_ok {msg : MsgDelegate} (h : handleMsgDelegate ctx s msg = .ok s') :
    ∃ w issued, s.getValidator msg.validatorAddr = some w ∧
      s.delegate ctx msg.delegatorAddr msg.bond w = .ok (s', issued) := by
  unfold handleMsgDelegate at h
  cases hw : s.getValidator msg.validatorAddr with
  | none =>
    rw [hw] at h
    cases h
  | some w =>
    simp only [hw] at h
    split_ifs at h
    simp only [bind_eq_ok, pure_eq_ok, Prod.exists] at h
    obtain ⟨s₁, issued, hdelegate, rfl⟩ := h
    exact ⟨w, issued, rfl, hdelegate⟩

theorem completeUnbonding_eq_ok {delegatorAddr validatorAddr : Address}
    (h : s.completeUnbonding ctx delegatorAddr validatorAddr = .ok s') :
    ∃ ubd accounts, s.getUnbondingDelegation delegatorAddr validatorAddr = some ubd ∧
      ubd.minTime ≤ ctx.blockTime ∧
      Bank.addCoins s.accounts ubd.delegatorAddr [ubd.balance] = .ok accounts ∧
      s' = { s with accounts }.removeUnbondingDelegation ubd := by
  unfold Store.completeUnbonding at h
  cases hubd : s.getUnbondingDelegation delegatorAddr validatorAddr with
  | none =>
    rw [hubd] at h
    cases h
  | some ubd =>
    simp only [hubd] at h
    split_ifs at h with hmature
    simp only [bind_eq_ok, pure_eq_ok] at h
    obtain ⟨accounts, hadd, rfl⟩ := h
    exact ⟨ubd, accounts, rfl, not_lt.mp hmature, hadd, rfl⟩

theorem completeRedelegation_eq_ok {delegatorAddr src dst : Address}
    (h : s.completeRedelegation ctx delegatorAddr src dst = .ok s') :
    ∃ red, s.getRedelegation delegatorAddr src dst = some red ∧ red.minTime ≤ ctx.blockTime ∧
      s' = s.removeRedelegation red := by
  unfold Store.completeRedelegation at h
  cases hred : s.getRedelegation delegatorAddr src dst with
  | none =>
    rw [hred] at h
    cases h
  | some red =>
    simp only [hred] at h
    split_ifs at h with hmature
    cases h
    exact ⟨red, rfl, not_lt.mp hmature, rfl⟩

/-! ## Unbonding and redelegation records -/

namespace Store.WellFormed

variable {s : Store}

theorem setUnbondingDelegation (hs : s.WellFormed) {ubd : UnbondingDelegation}
    (hcreation : ubd.creationHeight = 0) : (s.setUnbondingDelegation ubd).WellFormed :=
  ⟨hs.validators, hs.delegations, KVStore.forall_insert hs.unbondings ⟨rfl, hcreation⟩,
    hs.redelegations⟩

theorem removeUnbondingDelegation (hs : s.WellFormed) (ubd : UnbondingDelegation)
    (accounts : Auth.AccountStore) :
    ({ s with accounts }.removeUnbondingDelegation ubd).WellFormed :=
  ⟨hs.validators, hs.delegations, KVStore.forall_erase hs.unbondings, hs.redelegations⟩

theorem setRedelegation (hs : s.WellFormed) {red : Redelegation}
    (hcreation : red.creationHeight = 0) : (s.setRedelegation red).WellFormed :=
  ⟨hs.validators, hs.delegations, hs.unbondings, KVStore.forall_insert hs.redelegations hcreation⟩

theorem removeRedelegation (hs : s.WellFormed) (red : Redelegation) :
    (s.removeRedelegation red).WellFormed :=
  ⟨hs.validators, hs.delegations, hs.unbondings, KVStore.forall_erase hs.redelegations⟩

end Store.WellFormed

@[simp] theorem getValidator_emptyStore (params : Params) (pool : Pool)
    (accounts : Auth.AccountStore) (a : Address) :
    (emptyStore params pool accounts).getValidator a = none := by
  simp [Store.getValidator, emptyStore]

theorem emptyStore_wellFormed (params : Params) (pool : Pool) (accounts : Auth.AccountStore) :
    (emptyStore params pool accounts).WellFormed := by
  constructor <;> intro key record hrecord <;>
    simp [emptyStore, Store.getValidator] at hrecord

/-! ## Blocks and steps -/

theorem endBlocker_eq_ok {updates : List WRSPValidator} (h : endBlocker ctx s = .ok (s', updates)) :
    updates = s.getTendermintUpdates ∧ ∃ looseTokens inflation,
      s' = { s with
        pool := { s.pool with looseTokens, inflation }
        intraTxCounter := 0, tendermintUpdates := ∅ } := by
  simp only [endBlocker, bind_eq_ok, pure_eq_ok, Prod.mk.injEq] at h
  obtain ⟨pool, hpool, rfl, rfl⟩ := h
  refine ⟨rfl, pool.looseTokens, pool.inflation, ?_⟩
  have hpool' : pool = { s.pool with looseTokens := pool.looseTokens, inflation := pool.inflation } := by
    unfold endBlockPool at hpool
    split_ifs at hpool
    · simp only [Store.processProvisions, bind_eq_ok, pure_eq_ok] at hpool
      obtain ⟨inflation, -, provisions, -, rfl⟩ := hpool
      rfl
    · cases hpool
      rfl
  rw [← hpool']
  rfl

theorem step_endBlock_eq_ok {st st' : State} {blockTime : ℤ}
    (h : step st (.endBlock blockTime) = .ok st') :
    st.ctx.blockHeight + 1 < 2 ^ 63 ∧ ∃ looseTokens inflation,
      st' = ⟨⟨st.ctx.blockHeight + 1, blockTime⟩, { st.store with
        pool := { st.store.pool with looseTokens, inflation }
        intraTxCounter := 0, tendermintUpdates := ∅ }⟩ := by
  simp only [step, bind_eq_ok, pure_eq_ok, Prod.exists] at h
  obtain ⟨s', updates, hend, ctx, hctx, rfl⟩ := h
  obtain ⟨-, looseTokens, inflation, rfl⟩ := endBlocker_eq_ok hend
  unfold Ctx.next at hctx
  split_ifs at hctx with hheight
  cases hctx
  exact ⟨hheight, looseTokens, inflation, rfl⟩

theorem step_cases {st st' : State} {op : Op} (h : step st op = .ok st') :
    (∃ blockTime, op = .endBlock blockTime) ∨
      st'.ctx = st.ctx ∧ deliver st.ctx st.store op = .ok st'.store := by
  cases op with
  | endBlock blockTime => exact .inl ⟨blockTime, rfl⟩
  | createValidator _ | editValidator _ | delegate _ | beginUnbonding _ | completeUnbonding _
  | beginRedelegate _ | completeRedelegate _ | revoke _ | unrevoke _ | slash _ _ _ _ =>
    simp only [step, bind_eq_ok, pure_eq_ok] at h
    obtain ⟨store, hdeliver, rfl⟩ := h
    exact .inr ⟨rfl, hdeliver⟩

end Tepleton.Stake
