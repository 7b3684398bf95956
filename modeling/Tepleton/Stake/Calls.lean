import Tepleton.Stake.Keeper.Frame
import Tepleton.Stake.Handler

/-!
# Preparing an update

Every message and keeper call that changes a validator prepares a store and a copy of the validator
and then calls `updateValidator`.  `Changed` says what the preparation can do: delegating, unbonding
and slashing move shares between the validator and the pool, and the other calls change the copy
only.
-/

namespace Tepleton.Stake

open Lib

/-! ## Well-formed stores -/

/-- Records are stored under the keys made from their own fields, and unbonding records have no
creation height. -/
structure Store.WellFormed (s : Store) : Prop where
  validators : s.Keyed
  delegations : ∀ key d, s.delegations[key]? = some d →
    getDelegationKey d.delegatorAddr d.validatorAddr = key
  unbondings : ∀ key u, s.unbondingDelegations[key]? = some u →
    getUBDKey u.delegatorAddr u.validatorAddr = key ∧ u.creationHeight = 0
  redelegations : ∀ (key : Address ×ₗ Address ×ₗ Address) (r : Redelegation),
    s.redelegations[key]? = some r → r.creationHeight = 0

/-- No unbonding delegation and no redelegation has a creation height. -/
structure Store.Undated (s : Store) : Prop where
  unbondings : ∀ (key : Address ×ₗ Address) (u : UnbondingDelegation),
    s.unbondingDelegations[key]? = some u → u.creationHeight = 0
  redelegations : ∀ (key : Address ×ₗ Address ×ₗ Address) (r : Redelegation),
    s.redelegations[key]? = some r → r.creationHeight = 0

variable {s s₁ : Store} {w v : Validator} {delegations : KVStore (Address ×ₗ Address) Delegation}
  {ctx : Ctx} {delegatorAddr owner : Address} {infractionHeight : ℤ} {slashFactor : ℚ}

theorem Store.WellFormed.undated (hs : s.WellFormed) : s.Undated :=
  ⟨fun key u hu => (hs.unbondings key u hu).2, hs.redelegations⟩

/-- The shares some delegations give to a validator. -/
def sharesTo (validatorAddr : Address) (delegations : KVStore (Address ×ₗ Address) Delegation) : ℚ :=
  KVStore.sumBy (fun _ d => if d.validatorAddr = validatorAddr then d.shares else 0) delegations

/-- The shares delegated to a validator. -/
def Store.delegated (s : Store) (validatorAddr : Address) : ℚ := sharesTo validatorAddr s.delegations

theorem sharesTo_eq_add (a : Address) (delegations : KVStore (Address ×ₗ Address) Delegation)
    (key : Address ×ₗ Address) :
    sharesTo a delegations =
      delegations[key]?.elim 0 (fun d => if d.validatorAddr = a then d.shares else 0) +
        sharesTo a (delegations.erase key) := by
  cases hd : delegations[key]? with
  | none => rw [KVStore.erase_eq_self hd, Option.elim_none, zero_add]
  | some d => exact KVStore.sumBy_eq_add_erase _ hd

/-! ## Preparing an update -/

/-- From `s` and the stored validator `w` to the store and the validator handed to
`updateValidator`: shares move between the validator and the pool, delegations follow, and nothing
but pool, accounts and delegations of the store has changed. -/
structure Changed (s s₁ : Store) (w v : Validator) : Prop where
  stored : s.getValidator w.owner = some w
  owner : v.owner = w.owner
  pubKey : v.pubKey = w.pubKey
  status : v.status = w.status
  bondHeight : v.bondHeight = w.bondHeight
  bondIntraTxCounter : v.bondIntraTxCounter = w.bondIntraTxCounter
  moves : w.MovesWith s.pool v s₁.pool
  frame : s₁ = { s with pool := s₁.pool, accounts := s₁.accounts, delegations := s₁.delegations }
  keyed : ∀ key d, s₁.delegations[key]? = some d →
    getDelegationKey d.delegatorAddr d.validatorAddr = key
  delegated : ∀ a, s₁.delegated a =
    s.delegated a + if a = w.owner then v.delegatorShares - w.delegatorShares else 0

theorem Changed.getValidator (h : Changed s s₁ w v) (a : Address) :
    s₁.getValidator a = s.getValidator a := by
  rw [h.frame]
  rfl

theorem Changed.params (h : Changed s s₁ w v) : s₁.params = s.params := by
  rw [h.frame]

theorem Changed.found (h : Changed s s₁ w v) : s₁.getValidator v.owner = some w := by
  rw [h.getValidator, h.owner, h.stored]

theorem Changed.record_eq {u : Validator} (h : Changed s s₁ w v)
    (hu : s₁.getValidator v.owner = some u) : w = u :=
  Option.some.inj (h.found.symm.trans hu)

theorem Changed.wellFormed (h : Changed s s₁ w v) (hs : s.WellFormed) : s₁.WellFormed := by
  have hunbondings : s₁.unbondingDelegations = s.unbondingDelegations := by rw [h.frame]
  have hredelegations : s₁.redelegations = s.redelegations := by rw [h.frame]
  refine ⟨?_, h.keyed, ?_, ?_⟩
  · intro a w hw
    rw [h.getValidator] at hw
    exact hs.validators a w hw
  · rw [hunbondings]
    exact hs.unbondings
  · rw [hredelegations]
    exact hs.redelegations

theorem Changed.of_copy (hs : s.WellFormed) (hstored : s.getValidator w.owner = some w)
    (howner : v.owner = w.owner) (hpubKey : v.pubKey = w.pubKey)
    (hshares : v.poolShares = w.poolShares) (hheight : v.bondHeight = w.bondHeight)
    (hcounter : v.bondIntraTxCounter = w.bondIntraTxCounter)
    (hdelegator : v.delegatorShares = w.delegatorShares) : Changed s s w v where
  stored := hstored
  owner := howner
  pubKey := hpubKey
  status := congrArg PoolShares.status hshares
  bondHeight := hheight
  bondIntraTxCounter := hcounter
  moves := fun status => by
    rw [Validator.sharesIn_congr hshares]
    ring
  frame := rfl
  keyed := hs.delegations
  delegated := fun a => by simp [hdelegator]

theorem Changed.of_shares {pool : Pool} {accounts : Auth.AccountStore}
    (hstored : s.getValidator w.owner = some w)
    (hv : v = { w with revoked := v.revoked, delegatorShares := v.delegatorShares
                       poolShares := ⟨w.status, v.poolShares.amount⟩ })
    (hmoves : w.MovesWith s.pool v pool)
    (hkeyed : ∀ key d, delegations[key]? = some d →
      getDelegationKey d.delegatorAddr d.validatorAddr = key)
    (hdelegated : ∀ a, sharesTo a delegations =
      s.delegated a + if a = w.owner then v.delegatorShares - w.delegatorShares else 0) :
    Changed s { s with pool, accounts, delegations } w v where
  stored := hstored
  owner := by rw [hv]
  pubKey := by rw [hv]
  status := by rw [hv]; rfl
  bondHeight := by rw [hv]
  bondIntraTxCounter := by rw [hv]
  moves := hmoves
  frame := rfl
  keyed := hkeyed
  delegated := hdelegated

theorem sharesTo_change {delegations' : KVStore (Address ×ₗ Address) Delegation}
    (key : Address ×ₗ Address) (d : Delegation) (shares : ℚ) {a : Address}
    (hold : delegations[key]? = some d ∨ delegations[key]? = none ∧ d.shares = 0)
    (hnew : delegations' = delegations.erase key ∧ shares = 0 ∨
      ∃ height, delegations' = delegations.insert key { d with shares, height }) :
    sharesTo a delegations' =
      sharesTo a delegations + if a = d.validatorAddr then shares - d.shares else 0 := by
  have hbefore : sharesTo a delegations =
      (if d.validatorAddr = a then d.shares else 0) + sharesTo a (delegations.erase key) := by
    rw [sharesTo_eq_add a delegations key]
    rcases hold with hd | ⟨hd, hzero⟩
    · simp [hd]
    · simp [hd, hzero]
  have hafter : sharesTo a delegations' =
      (if d.validatorAddr = a then shares else 0) + sharesTo a (delegations.erase key) := by
    rcases hnew with ⟨rfl, rfl⟩ | ⟨height, rfl⟩
    · simp
    · exact KVStore.sumBy_insert _ _ _ _
  rw [hbefore, hafter]
  by_cases ha : d.validatorAddr = a
  · simp only [ha, if_true]
    ring
  · simp [ha, Ne.symm ha]

theorem prepareDelegate_changed {coin : Coin} {issued : ℚ} (hs : s.WellFormed)
    (hstored : s.getValidator w.owner = some w)
    (h : s.prepareDelegate ctx delegatorAddr coin w = .ok (s₁, v, issued)) : Changed s s₁ w v := by
  simp only [Store.prepareDelegate, bind_eq_ok, pure_eq_ok, Prod.exists, Prod.mk.injEq] at h
  obtain ⟨accounts, -, amount, -, v', pool, issued', hadd, rfl, rfl, rfl⟩ := h
  obtain ⟨hv, hmoves⟩ := Validator.addTokensFromDel_eq_ok hadd
  generalize hd : (s.getDelegation delegatorAddr w.owner).getD ⟨delegatorAddr, w.owner, 0, 0⟩ = d
  have hkey : getDelegationKey d.delegatorAddr d.validatorAddr =
      getDelegationKey delegatorAddr w.owner := by
    subst hd
    cases hget : s.getDelegation delegatorAddr w.owner with
    | none => rfl
    | some d => exact hs.delegations _ d hget
  have hvalidator : d.validatorAddr = w.owner := congrArg (fun key => (ofLex key).2) hkey
  refine Changed.of_shares hstored ?_ hmoves (KVStore.forall_insert hs.delegations rfl) ?_
  · rw [hv]
    rfl
  · intro a
    have hdelegator : v'.delegatorShares - w.delegatorShares = d.shares + issued' - d.shares := by
      rw [hv]
      ring
    rw [hdelegator, ← hvalidator]
    refine sharesTo_change (getDelegationKey d.delegatorAddr d.validatorAddr) d (d.shares + issued')
      ?_ (.inr ⟨ctx.blockHeight, rfl⟩)
    rw [hkey]
    subst hd
    cases hget : s.getDelegation delegatorAddr w.owner with
    | none => exact .inr ⟨hget, rfl⟩
    | some d => exact .inl hget

theorem prepareUnbond_eq_ok {validatorAddr : Address} {shares : ℚ} {amount : ℤ}
    (h : s.prepareUnbond ctx delegatorAddr validatorAddr shares = .ok (s₁, v, amount)) :
    ∃ d w, s.getDelegation delegatorAddr validatorAddr = some d ∧ shares ≤ d.shares ∧
      s.getValidator validatorAddr = some w ∧
      ∃ pool, Validator.removeDelShares { w with revoked := v.revoked } s.pool shares =
          .ok (v, pool, amount) ∧
        v.revoked = (w.revoked || decide (d.shares - shares = 0 ∧ d.delegatorAddr = w.owner)) ∧
        s₁ = (s.putDelegation ctx { d with shares := d.shares - shares }).setPool pool := by
  unfold Store.prepareUnbond at h
  cases hd : s.getDelegation delegatorAddr validatorAddr with
  | none =>
    rw [hd] at h
    cases h
  | some d =>
    simp only [hd] at h
    split_ifs at h with hshares
    cases hw : s.getValidator validatorAddr with
    | none =>
      rw [hw] at h
      cases h
    | some w =>
      simp only [hw, bind_eq_ok, pure_eq_ok, Prod.exists, Prod.mk.injEq] at h
      obtain ⟨v', pool, amount', hremove, rfl, rfl, rfl⟩ := h
      have hrevoked : v'.revoked =
          (w.revoked || decide (d.shares - shares = 0 ∧ d.delegatorAddr = w.owner)) := by
        rw [(Validator.removeDelShares_eq_ok hremove).1]
        rfl
      have hpool : (s.putDelegation ctx { d with shares := d.shares - shares }).pool = s.pool := by
        unfold Store.putDelegation
        split_ifs <;> rfl
      rw [hpool, ← hrevoked] at hremove
      exact ⟨d, w, rfl, not_lt.mp hshares, rfl, pool, hremove, hrevoked, rfl⟩

theorem prepareUnbond_changed {validatorAddr : Address} {shares : ℚ} {amount : ℤ}
    (hs : s.WellFormed)
    (h : s.prepareUnbond ctx delegatorAddr validatorAddr shares = .ok (s₁, v, amount)) :
    ∃ w, w.owner = validatorAddr ∧ Changed s s₁ w v := by
  obtain ⟨d, w, hd, -, hw, pool, hremove, -, rfl⟩ := prepareUnbond_eq_ok h
  have howner : w.owner = validatorAddr := hs.validators validatorAddr w hw
  obtain ⟨hv, hmoves⟩ := Validator.removeDelShares_eq_ok hremove
  have hkey : getDelegationKey d.delegatorAddr d.validatorAddr =
      getDelegationKey delegatorAddr validatorAddr := hs.delegations _ d hd
  have hvalidator : d.validatorAddr = w.owner :=
    (congrArg (fun key => (ofLex key).2) hkey).trans howner.symm
  have hstored : s.getValidator w.owner = some w := by rw [howner, hw]
  have hput : (s.putDelegation ctx { d with shares := d.shares - shares }).setPool pool =
      { s with
        pool
        accounts := s.accounts
        delegations := (s.putDelegation ctx { d with shares := d.shares - shares }).delegations } := by
    unfold Store.putDelegation
    split_ifs <;> rfl
  refine ⟨w, howner, ?_⟩
  rw [hput]
  refine Changed.of_shares hstored ?_ hmoves ?_ ?_
  · rw [hv]
    rfl
  · unfold Store.putDelegation
    split_ifs
    · exact KVStore.forall_erase hs.delegations
    · exact KVStore.forall_insert hs.delegations rfl
  · intro a
    have hdelegator : v.delegatorShares - w.delegatorShares = d.shares - shares - d.shares := by
      rw [hv]
      ring
    rw [hdelegator, ← hvalidator]
    refine sharesTo_change (getDelegationKey delegatorAddr validatorAddr) d _ (.inl hd) ?_
    unfold Store.putDelegation
    split_ifs with hzero
    · exact .inl ⟨by rw [← hkey]; rfl, hzero⟩
    · exact .inr ⟨ctx.blockHeight, by rw [← hkey]; rfl⟩

theorem slashValidator_changed {remaining : ℤ} (hs : s.WellFormed)
    (hstored : s.getValidator w.owner = some w) (h : s.slashValidator w remaining = .ok (s₁, v)) :
    Changed s s₁ w v := by
  simp only [Store.slashValidator, bind_eq_ok, pure_eq_ok, Prod.exists, Prod.mk.injEq] at h
  obtain ⟨held, -, v', pool, burned, hremove, rfl, rfl⟩ := h
  obtain ⟨hv, hmoves⟩ := Validator.removePoolShares_eq_ok hremove
  refine Changed.of_shares hstored ?_ ?_ hs.delegations ?_
  · rw [hv]
    rfl
  · intro status
    have hshares := hmoves status
    cases status <;> exact hshares
  · rw [hv]
    simp [Validator.withAmount, Store.delegated]

/-! ## Slashing for a recent infraction -/

/-- A slash whose infraction is at the current height or at a positive one. -/
def Op.Recent (ctx : Ctx) : Op → Prop
  | .slash _ infractionHeight _ _ => infractionHeight = ctx.blockHeight ∨ 0 < infractionHeight
  | _ => True

instance (ctx : Ctx) (op : Op) : Decidable (op.Recent ctx) :=
  match op with
  | .slash _ _ _ _ => inferInstanceAs (Decidable (_ ∨ _))
  | .createValidator _ | .editValidator _ | .delegate _ | .beginUnbonding _
  | .completeUnbonding _ | .beginRedelegate _ | .completeRedelegate _ | .revoke _ | .unrevoke _
  | .endBlock _ => inferInstanceAs (Decidable True)

theorem mem_getUnbondingDelegationsFromValidator {ubds : List UnbondingDelegation}
    {ubd : UnbondingDelegation} (h : s.getUnbondingDelegationsFromValidator owner = .ok ubds)
    (hubd : ubd ∈ ubds) : ∃ key : Address ×ₗ Address, s.unbondingDelegations[key]? = some ubd := by
  obtain ⟨entry, -, hentry⟩ := exists_of_mem_mapM h hubd
  cases hget : s.unbondingDelegations[entry.2]? with
  | none =>
    rw [hget] at hentry
    cases hentry
  | some u =>
    rw [hget] at hentry
    cases hentry
    exact ⟨entry.2, hget⟩

theorem mem_getRedelegationsFromValidator {reds : List Redelegation} {red : Redelegation}
    (h : s.getRedelegationsFromValidator owner = .ok reds) (hred : red ∈ reds) :
    ∃ key : Address ×ₗ Address ×ₗ Address, s.redelegations[key]? = some red := by
  obtain ⟨entry, -, hentry⟩ := exists_of_mem_mapM h hred
  cases hget : s.redelegations[entry.2]? with
  | none =>
    rw [hget] at hentry
    cases hentry
  | some r =>
    rw [hget] at hentry
    cases hentry
    exact ⟨entry.2, hget⟩

/-- Records without a creation height are passed over. -/
theorem slashRecords_recent {slashAmount remaining : ℤ} (hs : s.Undated)
    (hrecent : infractionHeight = ctx.blockHeight ∨ 0 < infractionHeight)
    (h : s.slashRecords ctx owner infractionHeight slashFactor slashAmount = .ok (s₁, remaining)) :
    s₁ = s ∧ remaining = slashAmount := by
  unfold Store.slashRecords at h
  split_ifs at h with hfuture hcurrent
  · cases h
    exact ⟨rfl, rfl⟩
  · have hpast : 0 < infractionHeight := hrecent.resolve_left hcurrent
    simp only [bind_eq_ok, Prod.exists] at h
    obtain ⟨ubds, hubds, t, left, hfold, reds, hreds, h⟩ := h
    have hskip : ∀ {slashOne : Store → Outcome (Store × ℤ)} {acc acc' : Store × ℤ},
        acc = (s, slashAmount) → slashOne acc.1 = .ok (s, 0) →
        Store.slashRecord slashOne acc.1 acc.2 = .ok acc' → acc' = (s, slashAmount) := by
      rintro slashOne acc acc' rfl hone hrecord
      simp only [Store.slashRecord, hone, bind_eq_ok, Except.ok.injEq, exists_eq_left', if_true,
        pure_eq_ok] at hrecord
      exact hrecord.symm
    have hmiddle : (t, left) = (s, slashAmount) := by
      refine foldlM_invariant (fun acc => acc = (s, slashAmount)) rfl ?_ hfold
      rintro acc ubd acc' hubd hacc hrecord
      obtain ⟨key, hget⟩ := mem_getUnbondingDelegationsFromValidator hubds hubd
      refine hskip hacc ?_ hrecord
      rw [Store.slashUnbondingDelegation, hs.unbondings _ _ hget, if_pos hpast, hacc]
    cases hmiddle
    have hend : (s₁, remaining) = (s, slashAmount) := by
      refine foldlM_invariant (fun acc => acc = (s, slashAmount)) rfl ?_ h
      rintro acc red acc' hred hacc hrecord
      obtain ⟨key, hget⟩ := mem_getRedelegationsFromValidator hreds hred
      refine hskip hacc ?_ hrecord
      rw [Store.slashRedelegation, hs.redelegations _ _ hget, if_pos hpast, hacc]
    cases hend
    exact ⟨rfl, rfl⟩

theorem prepareSlash_eq_ok {s₂ : Store} {pubkey : PubKey} {power : ℤ} {v₂ : Validator}
    (h : s.prepareSlash ctx pubkey infractionHeight power slashFactor = .ok (s₂, v₂)) :
    ∃ v s₁ remaining, s.getValidatorByPubKey pubkey = some v ∧
      s.slashRecords ctx v.owner infractionHeight slashFactor (evaluateBig (power * slashFactor)) =
        .ok (s₁, remaining) ∧ s₁.slashValidator v remaining = .ok (s₂, v₂) := by
  unfold Store.prepareSlash at h
  split_ifs at h
  simp only [bind_eq_ok] at h
  obtain ⟨slashAmount, hamount, h⟩ := h
  obtain rfl := roundInt_eq_ok hamount
  cases hv : s.getValidatorByPubKey pubkey with
  | none =>
    simp only [hv, throw_eq_ok] at h
  | some v =>
    simp only [hv, bind_eq_ok, Prod.exists] at h
    obtain ⟨s₁, remaining, hrecords, h⟩ := h
    exact ⟨v, s₁, remaining, rfl, hrecords, h⟩

theorem prepareSlash_changed {pubkey : PubKey} {power : ℤ} (hs : s.WellFormed)
    (hrecent : infractionHeight = ctx.blockHeight ∨ 0 < infractionHeight)
    (h : s.prepareSlash ctx pubkey infractionHeight power slashFactor = .ok (s₁, v)) :
    ∃ w, s.getValidatorByPubKey pubkey = some w ∧ Changed s s₁ w v := by
  obtain ⟨w, t, remaining, hw, hrecords, h⟩ := prepareSlash_eq_ok h
  obtain ⟨rfl, rfl⟩ := slashRecords_recent hs.undated hrecent hrecords
  obtain ⟨a, -, hget⟩ := Option.bind_eq_some_iff.mp hw
  exact ⟨w, hw, slashValidator_changed hs (hs.validators.stored hget) h⟩

end Tepleton.Stake
