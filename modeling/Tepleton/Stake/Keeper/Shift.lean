import Tepleton.Stake.Keeper.Frame

/-!
# Status changes are all an update does to the pool

In whatever state `updateValidator` is called, the pool it leaves is reached by status changes of
validators, and accounts, delegations and unbonding records stay as they are.  A status change moves
tokens inside the pool, so the token supply stays the same: this is `int64` arithmetic and needs no
condition on the pool.
-/

namespace Tepleton.Stake

open Lib

namespace Pool

/-- `p'` is reached from `p` by status changes of some validators. -/
def Shifts : Pool → Pool → Prop :=
  Relation.ReflTransGen fun p p' =>
    ∃ (v : Validator) (status : BondStatus) (v' : Validator), v.updateStatus p status = .ok (v', p')

/-! ## The token supply -/

theorem tokenSupply_withPart (p : Pool) (status : BondStatus) {tokens loose : ℤ} (shares : ℚ)
    (h : tokens + loose = p.tokens status + p.looseTokens) :
    (p.withPart status (int64 tokens) shares (int64 loose)).tokenSupply = p.tokenSupply := by
  obtain ⟨k, hk⟩ := exists_int64_eq tokens
  obtain ⟨l, hl⟩ := exists_int64_eq loose
  refine int64_eq_int64 (k + l) ?_
  cases status <;> simp only [withPart, Pool.tokens] at h ⊢ <;> rw [hk, hl] <;> linarith

variable {p p' : Pool} {status : BondStatus}

theorem tokenSupply_removeShares {shares : ℚ} {removed : ℤ}
    (h : p.removeShares status shares = .ok (p', removed)) : p'.tokenSupply = p.tokenSupply := by
  obtain ⟨-, -, rfl⟩ := removeShares_eq_ok h
  exact tokenSupply_withPart p status _ (by ring)

theorem tokenSupply_addTokens {amount : ℤ} {issued : PoolShares}
    (h : p.addTokens status amount = .ok (p', issued)) : p'.tokenSupply = p.tokenSupply := by
  obtain ⟨-, -, -, rfl⟩ := addTokens_eq_ok h
  exact tokenSupply_withPart p status _ (by ring)

theorem tokenSupply_updateStatus {v v' : Validator} (h : v.updateStatus p status = .ok (v', p')) :
    p'.tokenSupply = p.tokenSupply := by
  unfold Validator.updateStatus at h
  split_ifs at h
  · cases h
    rfl
  · simp only [bind_eq_ok, pure_eq_ok, Prod.exists, Prod.mk.injEq] at h
    obtain ⟨p₁, tokens, hremove, p₂, issued, hadd, rfl, rfl⟩ := h
    rw [tokenSupply_addTokens hadd, tokenSupply_removeShares hremove]

theorem Shifts.tokenSupply (h : p.Shifts p') : p'.tokenSupply = p.tokenSupply := by
  induction h with
  | refl => rfl
  | tail _ hstep ih =>
    obtain ⟨v, status, v', hstep⟩ := hstep
    rw [tokenSupply_updateStatus hstep, ih]

end Pool

/-! ## Updates -/

namespace Store

/-- From `s` to `s'` validators have changed status, and nothing outside the parts that an update
writes has changed. -/
structure Shifted (s s' : Store) : Prop where
  pool : s.pool.Shifts s'.pool
  frame : s'.updateFrame = s.updateFrame

namespace Shifted

variable {s s' s'' : Store}

theorem refl : Shifted s s := ⟨.refl, rfl⟩

theorem trans (h : Shifted s s') (h' : Shifted s' s'') : Shifted s s'' :=
  ⟨h.pool.trans h'.pool, h'.frame.trans h.frame⟩

theorem of_eq (hpool : s'.pool = s.pool) (hframe : s'.updateFrame = s.updateFrame) :
    Shifted s s' :=
  ⟨hpool ▸ .refl, hframe⟩

variable {v v' : Validator}

theorem bondValidator (h : s.bondValidator v = .ok (s', v')) : Shifted s s' := by
  obtain ⟨-, pool, hupdate, rfl⟩ := bondValidator_eq_ok.mp h
  exact ⟨.single ⟨v, .bonded, v', hupdate⟩, rfl⟩

theorem unbondValidator (h : s.unbondValidator v = .ok (s', v')) : Shifted s s' := by
  obtain ⟨-, pool, hupdate, rfl⟩ := unbondValidator_eq_ok.mp h
  exact ⟨.single ⟨v, .unbonded, v', hupdate⟩, rfl⟩

theorem updateBondedValidators {new : Validator} {updated : Option Validator}
    (h : s.updateBondedValidators new = .ok (s', updated)) : Shifted s s' := by
  simp only [Store.updateBondedValidators, bind_eq_ok, pure_eq_ok, Prod.mk.injEq] at h
  obtain ⟨l, hloop, s'', hkick, rfl, rfl⟩ := h
  have hl : Shifted s l.store := by
    refine BondLoop.loop_invariant (fun l => Shifted s l.store) ?_ ?_ .refl hloop
    · intro l a l' hl hnext
      obtain ⟨w, -, ⟨-, t, w', hbond, rfl⟩ | ⟨-, -, rfl⟩⟩ := BondLoop.next_eq_ok hnext
      · exact hl.trans (.bondValidator hbond)
      · exact hl
    · intro l l' hl hfinish
      obtain ⟨power, cliff, rfl⟩ := BondLoop.finish_eq_ok hfinish
      exact hl.trans (.of_eq rfl rfl)
  rcases kick_eq_ok.mp hkick with ⟨-, rfl⟩ | ⟨addr, v, v', -, -, hunbond⟩
  · exact hl
  · exact hl.trans (.unbondValidator hunbond)

theorem unbondRevoked {old : Option Validator} (h : s.unbondRevoked old v = .ok (s', v')) : Shifted
    s s' ∧ v'.owner = v.owner := by
  unfold Store.unbondRevoked at h
  split_ifs at h
  · simp only [bind_eq_ok, pure_eq_ok, Prod.exists, Prod.mk.injEq] at h
    obtain ⟨s₀, v₀, hunbond, rfl, rfl⟩ := h
    refine ⟨(unbondValidator hunbond).trans (.of_eq rfl rfl), ?_⟩
    obtain ⟨-, pool, hupdate, -⟩ := unbondValidator_eq_ok.mp hunbond
    rw [(Validator.updateStatus_eq_ok hupdate).1]
  · cases h
    exact ⟨.refl, rfl⟩

theorem rerank {ctx : Ctx} {key : Bytes} (h : s.rerank ctx v = .ok (s', v', key)) : Shifted s s' :=
    by
  simp only [Store.rerank, bind_eq_ok, pure_eq_ok, Prod.exists, Prod.mk.injEq] at h
  obtain ⟨s₀, v₀, hunbond, s₁, hunindex, key', -, rfl, -, -⟩ := h
  have hstamp : Shifted s₀ (s₀.stamp ctx (s.getValidator v.owner) v₀).1 := by
    unfold Store.stamp
    split
    · split_ifs
      · exact .refl
      · exact .of_eq rfl rfl
    · exact .of_eq rfl rfl
  have hindex : Shifted (s₀.stamp ctx (s.getValidator v.owner) v₀).1 s₁ := by
    unfold Store.unindex at hunindex
    split at hunindex
    · cases hunindex
      exact .refl
    · simp only [bind_eq_ok, pure_eq_ok] at hunindex
      obtain ⟨oldKey, -, rfl⟩ := hunindex
      exact .of_eq rfl rfl
  exact (((unbondRevoked hunbond).1.trans hstamp).trans hindex).trans (.of_eq rfl rfl)

theorem updateValidator {ctx : Ctx} (h : s.updateValidator ctx v = .ok (s', v')) : Shifted s s' :=
    by
  obtain ⟨s₁, v₁, key, hrerank, hcase⟩ := updateValidator_cases h
  have hfirst := rerank hrerank
  rcases hcase with ⟨-, rfl, rfl⟩ | ⟨-, -, rfl, rfl⟩ | ⟨-, -, s₂, updated, hwalk, rfl, rfl⟩
  · exact hfirst.trans (.of_eq rfl rfl)
  · exact hfirst.trans (.of_eq rfl rfl)
  · exact (hfirst.trans (updateBondedValidators hwalk)).trans (.of_eq rfl rfl)

theorem tokenSupply (h : Shifted s s') : s'.pool.tokenSupply = s.pool.tokenSupply :=
  h.pool.tokenSupply

theorem accounts (h : Shifted s s') : s'.accounts = s.accounts := by
  have haccounts := congrArg Store.accounts h.frame
  exact haccounts

theorem params (h : Shifted s s') : s'.params = s.params := by
  have hparams := congrArg Store.params h.frame
  exact hparams

theorem unbondingDelegations (h : Shifted s s') :
    s'.unbondingDelegations = s.unbondingDelegations := by
  have hunbondings := congrArg Store.unbondingDelegations h.frame
  exact hunbondings

theorem redelegations (h : Shifted s s') : s'.redelegations = s.redelegations := by
  have hredelegations := congrArg Store.redelegations h.frame
  exact hredelegations

end Shifted

end Store

end Tepleton.Stake
