import Tepleton.Stake.Keeper.Shift
import Tepleton.Stake.Inversion

/-!
# What a step does beyond validators and the pool

Most of what a step does is about validators, delegations and the pool.  `Store.Inner` relates stores
that differ in nothing else.  `Effect` says what the steps do beyond that, whatever state they are taken
in: coins leave an account or come back to one, and unbonding delegations and redelegations are
stored, slashed or removed.  Every step has one of these effects (`step_effect`).
-/

namespace Tepleton.Stake

open Lib

/-! ## Parts of the store -/

namespace Store

/-- Unbonding delegations and redelegations are as they were. -/
def SameRecords (s s' : Store) : Prop :=
  s'.unbondingDelegations = s.unbondingDelegations ∧ s'.redelegations = s.redelegations

/-- The time of the last inflation is as it was. -/
def SameClock (s s' : Store) : Prop := s'.pool.inflationLastTime = s.pool.inflationLastTime

/-- Accounts, parameters and the time of the last inflation are as they were. -/
structure SameOuter (s s' : Store) : Prop where
  accounts : s'.accounts = s.accounts
  params : s'.params = s.params
  clock : s.SameClock s'

/-- Nothing has changed but validators, delegations and the pool. -/
structure Inner (s s' : Store) : Prop extends SameOuter s s' where
  records : s.SameRecords s'

variable {s s' s'' : Store}

theorem SameRecords.trans (h : s.SameRecords s') (h' : s'.SameRecords s'') : s.SameRecords s'' :=
  ⟨h'.1.trans h.1, h'.2.trans h.2⟩

theorem SameOuter.trans (h : s.SameOuter s') (h' : s'.SameOuter s'') : s.SameOuter s'' :=
  ⟨h'.accounts.trans h.accounts, h'.params.trans h.params, h'.clock.trans h.clock⟩

theorem Inner.refl (s : Store) : s.Inner s := ⟨⟨rfl, rfl, rfl⟩, rfl, rfl⟩

theorem Inner.trans (h : s.Inner s') (h' : s'.Inner s'') : s.Inner s'' :=
  ⟨h.toSameOuter.trans h'.toSameOuter, h.records.trans h'.records⟩

end Store

namespace Pool

variable {p p' : Pool}

@[simp] theorem inflationLastTime_withPart (p : Pool) (status : BondStatus) (tokens : ℤ) (shares : ℚ)
    (loose : ℤ) :
    (p.withPart status tokens shares loose).inflationLastTime = p.inflationLastTime := by
  cases status <;> rfl

theorem inflationLastTime_addTokens {status : BondStatus} {amount : ℤ} {issued : PoolShares}
    (h : p.addTokens status amount = .ok (p', issued)) :
    p'.inflationLastTime = p.inflationLastTime := by
  obtain ⟨-, -, -, rfl⟩ := addTokens_eq_ok h
  exact inflationLastTime_withPart _ _ _ _ _

theorem inflationLastTime_removeShares {status : BondStatus} {shares : ℚ} {removed : ℤ}
    (h : p.removeShares status shares = .ok (p', removed)) :
    p'.inflationLastTime = p.inflationLastTime := by
  obtain ⟨-, -, rfl⟩ := removeShares_eq_ok h
  exact inflationLastTime_withPart _ _ _ _ _

theorem Shifts.inflationLastTime (h : p.Shifts p') :
    p'.inflationLastTime = p.inflationLastTime := by
  induction h with
  | refl => rfl
  | tail _ hstep ih =>
    obtain ⟨v, status, v', hstep⟩ := hstep
    unfold Validator.updateStatus at hstep
    split_ifs at hstep
    · cases hstep
      exact ih
    · simp only [bind_eq_ok, pure_eq_ok, Prod.exists, Prod.mk.injEq] at hstep
      obtain ⟨p₁, tokens, hremove, p₂, issued, hadd, rfl, rfl⟩ := hstep
      rw [inflationLastTime_addTokens hadd, inflationLastTime_removeShares hremove, ih]

end Pool

/-! ## Delegating and unbonding -/

section Calls

variable {ctx : Ctx} {s s' : Store} {delegatorAddr validatorAddr : Address} {shares : ℚ}

theorem Store.Shifted.inner (h : s.Shifted s') : s.Inner s' :=
  ⟨⟨h.accounts, h.params, h.pool.inflationLastTime⟩, h.unbondingDelegations, h.redelegations⟩

theorem removeIfEmpty_frame {v : Validator} (h : s.removeIfEmpty v = .ok s') :
    s'.pool = s.pool ∧ s.Inner s' := by
  unfold Store.removeIfEmpty at h
  split_ifs at h
  · cases hw : s.getValidator v.owner with
    | none =>
      simp only [Store.removeValidator, hw] at h
      cases h
      exact ⟨rfl, .refl s⟩
    | some w =>
      obtain ⟨key, -, rfl⟩ := removeValidator_eq_ok hw h
      exact ⟨rfl, ⟨rfl, rfl, rfl⟩, rfl, rfl⟩
  · cases h
    exact ⟨rfl, .refl s⟩

theorem unbond_inner {amount : ℤ}
    (h : s.unbond ctx delegatorAddr validatorAddr shares = .ok (s', amount)) : s.Inner s' := by
  simp only [Store.unbond, bind_eq_ok, pure_eq_ok, Prod.exists, Prod.mk.injEq] at h
  obtain ⟨s₁, v, amount', hprepare, s₂, v', hupdate, s₃, hremove, rfl, rfl⟩ := h
  obtain ⟨d, w, -, -, -, pool, hshares, -, rfl⟩ := prepareUnbond_eq_ok hprepare
  simp only [Validator.removeDelShares, bind_eq_ok, pure_eq_ok, Prod.exists, Prod.mk.injEq] at hshares
  obtain ⟨exRate, -, sold, -, pool₁, tokens, hshares, -, rfl, rfl⟩ := hshares
  have hclock := Pool.inflationLastTime_removeShares hshares
  have hput : s.Inner ((s.putDelegation ctx { d with shares := d.shares - shares }).setPool
      pool₁) := by
    unfold Store.putDelegation
    split_ifs <;> exact ⟨⟨rfl, rfl, hclock⟩, rfl, rfl⟩
  exact (hput.trans (Store.Shifted.updateValidator hupdate).inner).trans (removeIfEmpty_frame hremove).2

/-- Delegating takes coins from an account. -/
theorem delegate_eq_ok {coin : Coin} {v : Validator} {issued : ℚ}
    (h : s.delegate ctx delegatorAddr coin v = .ok (s', issued)) :
    ∃ accounts payer, Bank.subtractCoins s.accounts payer [coin] = .ok accounts ∧
      { s with accounts }.Inner s' := by
  simp only [Store.delegate, Store.prepareDelegate, bind_eq_ok, pure_eq_ok, Prod.exists,
    Prod.mk.injEq] at h
  obtain ⟨s₁, v₁, issued', ⟨accounts, hpaid, amount, -, v₂, pool, issued₂, hadd, rfl, rfl, rfl⟩,
    s₂, v', hupdate, rfl, rfl⟩ := h
  simp only [Validator.addTokensFromDel, bind_eq_ok, pure_eq_ok, Prod.exists, Prod.mk.injEq] at hadd
  obtain ⟨exRate, -, pool₁, poolShares, hadd, bondedShares, -, issued', -, -, rfl, -⟩ := hadd
  refine ⟨accounts, _, hpaid, .trans ?_ (Store.Shifted.updateValidator hupdate).inner⟩
  exact ⟨⟨rfl, rfl, Pool.inflationLastTime_addTokens hadd⟩, rfl, rfl⟩

theorem setRevoked_inner {pubkey : PubKey} {revoked : Bool}
    (h : s.setRevoked ctx pubkey revoked = .ok s') : s.Inner s' := by
  unfold Store.setRevoked at h
  split at h
  · cases h
  · simp only [bind_eq_ok, pure_eq_ok, Prod.exists] at h
    obtain ⟨s₁, v', hupdate, rfl⟩ := h
    exact (Store.Shifted.updateValidator hupdate).inner

end Calls

/-! ## Slashing -/

namespace UnbondingDelegation

/-- The unbonding began at or after the infraction and has not matured. -/
def Slashable (ctx : Ctx) (ubd : UnbondingDelegation) (infractionHeight : ℤ) : Prop :=
  infractionHeight ≤ ubd.creationHeight ∧ ctx.blockTime ≤ ubd.minTime

instance (ctx : Ctx) (ubd : UnbondingDelegation) (infractionHeight : ℤ) :
    Decidable (ubd.Slashable ctx infractionHeight) :=
  inferInstanceAs (Decidable (_ ∧ _))

/-- The part of the initial balance that a slash asks for. -/
def asked (ubd : UnbondingDelegation) (slashFactor : ℚ) : ℤ :=
  evaluateBig (ubd.initialBalance.amount * slashFactor)

/-- The record after a slash. -/
def slashed (ubd : UnbondingDelegation) (slashFactor : ℚ) : UnbondingDelegation :=
  { ubd with
    balance := { ubd.balance with
      amount := ubd.balance.amount - min (ubd.asked slashFactor) ubd.balance.amount } }

theorem asked_nonneg {ubd : UnbondingDelegation} {slashFactor : ℚ}
    (hinitial : 0 ≤ ubd.initialBalance.amount) (hfactor : 0 ≤ slashFactor) :
    0 ≤ ubd.asked slashFactor := by
  apply le_evaluateBig
  have hamount : (0 : ℚ) ≤ ubd.initialBalance.amount := by exact_mod_cast hinitial
  exact_mod_cast mul_nonneg hamount hfactor

end UnbondingDelegation

section Slash

variable {ctx : Ctx} {s s' : Store} {infractionHeight amount : ℤ} {slashFactor : ℚ}
  {ubd : UnbondingDelegation} {red : Redelegation} {pubkey : PubKey} {power : ℤ}

/-- The record is passed over, or it has nothing to lose, or it loses the capped amount and the
amount asked for is burned. -/
theorem slashUnbondingDelegation_eq_ok
    (h : s.slashUnbondingDelegation ctx ubd infractionHeight slashFactor = .ok (s', amount)) :
    (¬ ubd.Slashable ctx infractionHeight ∧ amount = 0 ∧ s' = s) ∨
      (ubd.Slashable ctx infractionHeight ∧ amount = ubd.asked slashFactor ∧
        ((min (ubd.asked slashFactor) ubd.balance.amount = 0 ∧ s' = s) ∨
          (min (ubd.asked slashFactor) ubd.balance.amount ≠ 0 ∧ ubd.asked slashFactor < 2 ^ 63 ∧
            s' = (s.setUnbondingDelegation (ubd.slashed slashFactor)).setPool
              { s.pool with
                looseTokens := int64 (s.pool.looseTokens - ubd.asked slashFactor) }))) := by
  unfold Store.slashUnbondingDelegation at h
  split_ifs at h with hearly hmature
  · cases h
    exact .inl ⟨fun hslashable => absurd hslashable.1 (not_le.mpr hearly), rfl, rfl⟩
  · cases h
    exact .inl ⟨fun hslashable => absurd hslashable.2 (not_le.mpr hmature), rfl, rfl⟩
  · rw [bind_eq_ok] at h
    obtain ⟨asked, hasked, h⟩ := h
    obtain rfl : asked = ubd.asked slashFactor := roundInt_eq_ok hasked
    refine .inr ⟨⟨not_lt.mp hearly, not_lt.mp hmature⟩, ?_⟩
    simp only at h
    split_ifs at h with hzero
    · cases h
      exact ⟨rfl, .inl ⟨hzero, rfl⟩⟩
    · simp only [bind_eq_ok, pure_eq_ok, Prod.mk.injEq] at h
      obtain ⟨left, hleft, burned, hburned, rfl, rfl⟩ := h
      obtain rfl := subInt_eq_ok hleft
      obtain ⟨rfl, -, hfits⟩ := toInt64_eq_ok hburned
      exact ⟨rfl, .inr ⟨hzero, hfits, rfl⟩⟩

theorem burnRedelegated_inner (h : s.burnRedelegated ctx red slashFactor = .ok s') :
    s.Inner s' := by
  unfold Store.burnRedelegated at h
  split_ifs at h
  · cases h
    exact .refl s
  · split at h
    · cases h
      exact .refl s
    · simp only at h
      split at h
      · cases h
      · cases h
      · rename_i hunbond
        cases h
        exact (unbond_inner hunbond).trans ⟨⟨rfl, rfl, rfl⟩, rfl, rfl⟩

/-- At most the balance of the record changes. -/
theorem slashRedelegation_eq_ok
    (h : s.slashRedelegation ctx red infractionHeight slashFactor = .ok (s', amount)) :
    ∃ s₁, (s₁ = s ∨ ∃ balance, s₁ = s.setRedelegation { red with balance }) ∧ s₁.Inner s' := by
  unfold Store.slashRedelegation at h
  split_ifs at h
  · cases h
    exact ⟨s, .inl rfl, .refl s⟩
  · cases h
    exact ⟨s, .inl rfl, .refl s⟩
  · rw [bind_eq_ok] at h
    obtain ⟨asked, -, h⟩ := h
    simp only at h
    split_ifs at h
    · simp only [bind_eq_ok, pure_eq_ok, Prod.mk.injEq] at h
      obtain ⟨s₁, rfl, s₂, hburn, rfl, rfl⟩ := h
      exact ⟨s, .inl rfl, burnRedelegated_inner hburn⟩
    · simp only [bind_eq_ok, pure_eq_ok, Prod.mk.injEq] at h
      obtain ⟨left, -, s₁, rfl, s₂, hburn, rfl, rfl⟩ := h
      exact ⟨_, .inr ⟨_, rfl⟩, burnRedelegated_inner hburn⟩

theorem slashRecord_eq_ok {slashOne : Store → Outcome (Store × ℤ)} {remaining : ℤ} {acc : Store × ℤ}
    (h : Store.slashRecord slashOne s remaining = .ok acc) :
    ∃ amount, slashOne s = .ok (acc.1, amount) ∧ acc.2 = remaining - amount := by
  simp only [Store.slashRecord, bind_eq_ok, Prod.exists] at h
  obtain ⟨s', amount, hslash, h⟩ := h
  split_ifs at h with hzero
  · cases h
    exact ⟨amount, hslash, by simp [hzero]⟩
  · simp only [bind_eq_ok, pure_eq_ok] at h
    obtain ⟨left, hleft, rfl⟩ := h
    exact ⟨amount, hslash, subInt_eq_ok hleft⟩

/-- The loops of `Slash` over unbonding delegations and redelegations keep what slashing each record
that was read keeps. -/
theorem slashRecords_invariant {owner : Address} {slashAmount remaining : ℤ} (I J : Store → Prop)
    (hI : I s) (hJ : ∀ {t}, I t → J t)
    (hubd : ∀ {t t' amount ubd} {key : Address ×ₗ Address},
      s.unbondingDelegations[key]? = some ubd → I t →
      t.slashUnbondingDelegation ctx ubd infractionHeight slashFactor = .ok (t', amount) → I t')
    (hred : ∀ {t₀ t t' amount red} {key : Address ×ₗ Address ×ₗ Address},
      I t₀ → t₀.redelegations[key]? = some red → J t →
      t.slashRedelegation ctx red infractionHeight slashFactor = .ok (t', amount) → J t')
    (h : s.slashRecords ctx owner infractionHeight slashFactor slashAmount = .ok (s', remaining)) :
    J s' := by
  unfold Store.slashRecords at h
  split_ifs at h
  · cases h
    exact hJ hI
  · simp only [bind_eq_ok, Prod.exists] at h
    obtain ⟨ubds, hubds, t, left, hfold, reds, hreds, h⟩ := h
    have ht : I t := by
      refine foldlM_invariant (fun acc : Store × ℤ => I acc.1) hI ?_ hfold
      intro acc ubd acc' hmem hacc hround
      obtain ⟨key, hget⟩ := mem_getUnbondingDelegationsFromValidator hubds hmem
      obtain ⟨amount, hslash, -⟩ := slashRecord_eq_ok hround
      exact hubd hget hacc hslash
    refine foldlM_invariant (fun acc : Store × ℤ => J acc.1) (hJ ht) ?_ h
    intro acc red acc' hmem hacc hround
    obtain ⟨key, hget⟩ := mem_getRedelegationsFromValidator hreds hmem
    obtain ⟨amount, hslash, -⟩ := slashRecord_eq_ok hround
    exact hred ht hget hacc hslash

theorem slashRecords_sameOuter {owner : Address} {slashAmount remaining : ℤ}
    (h : s.slashRecords ctx owner infractionHeight slashFactor slashAmount = .ok (s', remaining)) :
    s.SameOuter s' := by
  refine slashRecords_invariant s.SameOuter s.SameOuter ⟨rfl, rfl, rfl⟩ id ?_ ?_ h
  · intro t t' amount ubd key _ ht hslash
    obtain ⟨-, -, rfl⟩ | ⟨-, -, ⟨-, rfl⟩ | ⟨-, -, rfl⟩⟩ := slashUnbondingDelegation_eq_ok hslash
    · exact ht
    · exact ht
    · exact ht.trans ⟨rfl, rfl, rfl⟩
  · intro t₀ t t' amount red key _ _ ht hslash
    obtain ⟨s₁, rfl | ⟨balance, rfl⟩, hburned⟩ := slashRedelegation_eq_ok hslash
    · exact ht.trans hburned.toSameOuter
    · exact ht.trans ⟨hburned.accounts, hburned.params, hburned.clock⟩

theorem slash_eq_ok (h : s.slash ctx pubkey infractionHeight power slashFactor = .ok s') :
    ∃ v s₁ remaining, s.getValidatorByPubKey pubkey = some v ∧
      s.slashRecords ctx v.owner infractionHeight slashFactor (evaluateBig (power * slashFactor)) =
        .ok (s₁, remaining) ∧ s₁.Inner s' := by
  simp only [Store.slash, bind_eq_ok, pure_eq_ok, Prod.exists] at h
  obtain ⟨s₂, v₂, hprepare, s₃, v₃, hupdate, rfl⟩ := h
  obtain ⟨v, s₁, remaining, hv, hrecords, hvalidator⟩ := prepareSlash_eq_ok hprepare
  simp only [Store.slashValidator, Validator.removePoolShares, bind_eq_ok, pure_eq_ok, Prod.exists,
    Prod.mk.injEq] at hvalidator
  obtain ⟨held, -, v', pool, burned, ⟨pool₁, tokens, hremove, rfl, rfl, rfl⟩, rfl, rfl⟩ := hvalidator
  have hclock := Pool.inflationLastTime_removeShares hremove
  refine ⟨v, s₁, remaining, hv, hrecords, .trans ?_ (Store.Shifted.updateValidator hupdate).inner⟩
  exact ⟨⟨rfl, rfl, hclock⟩, rfl, rfl⟩

theorem slash_sameOuter (h : s.slash ctx pubkey infractionHeight power slashFactor = .ok s') :
    s.SameOuter s' := by
  obtain ⟨v, s₁, remaining, -, hrecords, hinner⟩ := slash_eq_ok h
  exact (slashRecords_sameOuter hrecords).trans hinner.toSameOuter

theorem slash_sameRecords (hs : s.Undated)
    (hrecent : infractionHeight = ctx.blockHeight ∨ 0 < infractionHeight)
    (h : s.slash ctx pubkey infractionHeight power slashFactor = .ok s') : s.SameRecords s' := by
  obtain ⟨v, s₁, remaining, -, hrecords, hinner⟩ := slash_eq_ok h
  obtain ⟨rfl, -⟩ := slashRecords_recent hs hrecent hrecords
  exact hinner.records

end Slash

/-! ## Steps -/

/-- The step begins or completes an unbonding or a redelegation. -/
def Op.WritesRecord : Op → Prop
  | .beginUnbonding _ | .completeUnbonding _ | .beginRedelegate _ | .completeRedelegate _ => True
  | _ => False

/-- What a step does: creating a validator and delegating to one are paid for, and only slashes, and
beginning and completing unbondings and redelegations, write records. -/
inductive Effect (ctx : Ctx) (s : Store) : Op → Store → Prop
  | inner {op : Op} {s' : Store} (hop : ¬ op.WritesRecord) (h : s.Inner s') : Effect ctx s op s'
  | pays {op : Op} {s' : Store} {accounts : Auth.AccountStore} {payer : Address} {coin : Coin}
      (hop : ¬ op.WritesRecord) (hpaid : Bank.subtractCoins s.accounts payer [coin] = .ok accounts)
      (h : { s with accounts }.Inner s') (hpositive : 0 < coin.amount) : Effect ctx s op s'
  | slash {pubkey : PubKey} {infractionHeight power : ℤ} {slashFactor : ℚ} {s' : Store}
      (h : s.slash ctx pubkey infractionHeight power slashFactor = .ok s') :
      Effect ctx s (.slash pubkey infractionHeight power slashFactor) s'
  | beginUnbonding {msg : MsgBeginUnbonding} {s₁ : Store} {amount : ℤ}
      (hunbond : s.unbond ctx msg.delegatorAddr msg.validatorAddr msg.sharesAmount =
        .ok (s₁, amount)) (h : s.Inner s₁) :
      Effect ctx s (.beginUnbonding msg) (s₁.setUnbondingDelegation
        { delegatorAddr := msg.delegatorAddr, validatorAddr := msg.validatorAddr
          creationHeight := 0, minTime := int64 (ctx.blockTime + s.params.unbondingTime)
          initialBalance := ⟨s.params.bondDenom, amount⟩
          balance := ⟨s.params.bondDenom, amount⟩ })
  | completeUnbonding {msg : MsgCompleteUnbonding} {ubd : UnbondingDelegation}
      {accounts : Auth.AccountStore}
      (hubd : s.getUnbondingDelegation msg.delegatorAddr msg.validatorAddr = some ubd)
      (hmature : ubd.minTime ≤ ctx.blockTime)
      (hadd : Bank.addCoins s.accounts ubd.delegatorAddr [ubd.balance] = .ok accounts) :
      Effect ctx s (.completeUnbonding msg) ({ s with accounts }.removeUnbondingDelegation ubd)
  | beginRedelegate {msg : MsgBeginRedelegate} {s₁ : Store} {red : Redelegation}
      {accounts : Auth.AccountStore} {payer : Address} {coin : Coin}
      (hpaid : Bank.subtractCoins s.accounts payer [coin] = .ok accounts)
      (h : { s with accounts }.Inner s₁)
      (hred : red.delegatorAddr = msg.delegatorAddr ∧ red.validatorSrcAddr = msg.validatorSrcAddr ∧
        red.validatorDstAddr = msg.validatorDstAddr)
      (hundated : red.creationHeight = 0)
      (htime : red.minTime = int64 (ctx.blockTime + s.params.unbondingTime))
      (hunbond : ∃ s₂, s.unbond ctx msg.delegatorAddr msg.validatorSrcAddr msg.sharesAmount =
        .ok (s₂, coin.amount)) :
      Effect ctx s (.beginRedelegate msg) (s₁.setRedelegation red)
  | completeRedelegate {msg : MsgCompleteRedelegate} {red : Redelegation}
      (hred : s.getRedelegation msg.delegatorAddr msg.validatorSrcAddr msg.validatorDstAddr = some red)
      (hmature : red.minTime ≤ ctx.blockTime) :
      Effect ctx s (.completeRedelegate msg) (s.removeRedelegation red)

section Steps

variable {ctx : Ctx} {s s' : Store} {op : Op}

theorem beginRedelegation_effect {msg : MsgBeginRedelegate}
    (h : s.beginRedelegation ctx msg.delegatorAddr msg.validatorSrcAddr msg.validatorDstAddr
      msg.sharesAmount = .ok s') : Effect ctx s (.beginRedelegate msg) s' := by
  unfold Store.beginRedelegation at h
  split_ifs at h
  simp only [bind_eq_ok, Prod.exists] at h
  obtain ⟨s₁, amount, hunbond, h⟩ := h
  have hinner := unbond_inner hunbond
  split at h
  · cases h
  · simp only [bind_eq_ok, pure_eq_ok, Prod.exists] at h
    obtain ⟨s₂, created, hdelegate, rfl⟩ := h
    obtain ⟨accounts, payer, hpaid, hinner'⟩ := delegate_eq_ok hdelegate
    rw [hinner.accounts] at hpaid
    have hpaying : { s with accounts }.Inner { s₁ with accounts } :=
      ⟨⟨rfl, hinner.params, hinner.clock⟩, hinner.records⟩
    refine .beginRedelegate hpaid (hpaying.trans hinner') ⟨rfl, rfl, rfl⟩ rfl ?_ ⟨s₁, hunbond⟩
    rw [← hinner.params]

theorem amount_pos {coin : Coin} (h : validateAmount coin = .ok ()) : 0 < coin.amount := by
  unfold validateAmount at h
  split_ifs at h with hpositive
  exact hpositive

theorem deliver_effect (h : deliver ctx s op = .ok s') : Effect ctx s op s' := by
  cases op with
  | createValidator msg =>
    simp only [deliver, handleMsgCreateValidator, bind_eq_ok, pure_eq_ok, Prod.exists] at h
    obtain ⟨_, hbasic, s₀, w, hregister, s₁, issued, hdelegate, rfl⟩ := h
    obtain ⟨-, -, -, rfl⟩ := registerValidator_eq_ok hregister
    obtain ⟨accounts, payer, hpaid, hinner⟩ := delegate_eq_ok hdelegate
    simp only [MsgCreateValidator.validateBasic, bind_eq_ok] at hbasic
    obtain ⟨_, hamount, -⟩ := hbasic
    exact .pays id hpaid ⟨⟨hinner.accounts, hinner.params, hinner.clock⟩, hinner.records⟩
      (amount_pos hamount)
  | editValidator msg =>
    simp only [deliver, bind_eq_ok] at h
    obtain ⟨_, -, h⟩ := h
    unfold handleMsgEditValidator at h
    split at h
    · cases h
    · simp only [bind_eq_ok, pure_eq_ok, Prod.exists] at h
      obtain ⟨description, -, s₁, v', hupdate, rfl⟩ := h
      exact .inner id (Store.Shifted.updateValidator hupdate).inner
  | delegate msg =>
    simp only [deliver, bind_eq_ok] at h
    obtain ⟨_, hamount, h⟩ := h
    obtain ⟨w, issued, -, hdelegate⟩ := handleMsgDelegate_eq_ok h
    obtain ⟨accounts, payer, hpaid, hinner⟩ := delegate_eq_ok hdelegate
    exact .pays id hpaid hinner (amount_pos hamount)
  | beginUnbonding msg =>
    simp only [deliver, handleMsgBeginUnbonding, Store.beginUnbonding, bind_eq_ok, pure_eq_ok,
      Prod.exists] at h
    obtain ⟨_, -, s₁, amount, hunbond, rfl⟩ := h
    rw [(unbond_inner hunbond).params]
    exact .beginUnbonding hunbond (unbond_inner hunbond)
  | completeUnbonding msg =>
    obtain ⟨ubd, accounts, hubd, hmature, hadd, rfl⟩ := completeUnbonding_eq_ok h
    exact .completeUnbonding hubd hmature hadd
  | beginRedelegate msg =>
    simp only [deliver, bind_eq_ok] at h
    obtain ⟨_, -, h⟩ := h
    exact beginRedelegation_effect h
  | completeRedelegate msg =>
    obtain ⟨red, hred, hmature, rfl⟩ := completeRedelegation_eq_ok h
    exact .completeRedelegate hred hmature
  | revoke pubkey | unrevoke pubkey => exact .inner id (setRevoked_inner h)
  | slash pubkey infractionHeight power slashFactor => exact .slash h
  | endBlock blockTime =>
    cases h
    exact .inner id (.refl s)

theorem step_effect {st : State} {ctx' : Ctx} (h : step st op = .ok ⟨ctx', s'⟩) :
    Effect st.ctx st.store op s' := by
  rcases step_cases h with ⟨blockTime, rfl⟩ | ⟨-, hdeliver⟩
  · obtain ⟨-, looseTokens, inflation, heq⟩ := step_endBlock_eq_ok h
    cases heq
    exact .inner id ⟨⟨rfl, rfl, rfl⟩, rfl, rfl⟩
  · exact deliver_effect hdeliver

/-- Only coins of accounts have changed. -/
abbrev Store.OnlyCoins (s s' : Store) : Prop := Bank.OnlyCoins s.accounts s'.accounts

/-- Whatever state a step is taken in, every account keeps its key, its number and its sequence
number. -/
theorem Effect.onlyCoins (h : Effect ctx s op s') : s.OnlyCoins s' := by
  cases h with
  | inner _ h => exact .of_eq h.accounts
  | pays _ hpaid h =>
    rw [Store.OnlyCoins, h.accounts]
    exact .subtractCoins hpaid
  | slash h => exact .of_eq (slash_sameOuter h).accounts
  | beginUnbonding _ h => exact .of_eq h.accounts
  | completeUnbonding _ _ hadd => exact .addCoins hadd
  | beginRedelegate hpaid h =>
    have haccounts := h.accounts
    rw [Store.OnlyCoins, Store.setRedelegation, haccounts]
    exact .subtractCoins hpaid
  | completeRedelegate _ _ => exact .of_eq rfl

/-- No step changes the time of the last inflation. -/
theorem Effect.clock (h : Effect ctx s op s') : s.SameClock s' := by
  cases h with
  | inner _ h => exact h.clock
  | pays _ _ h => exact h.clock
  | slash h => exact (slash_sameOuter h).clock
  | beginUnbonding _ h => exact h.clock
  | completeUnbonding _ _ _ => exact rfl
  | beginRedelegate _ h _ _ _ => exact h.clock
  | completeRedelegate _ _ => exact rfl

/-- No step changes the parameters. -/
theorem Effect.params (h : Effect ctx s op s') : s'.params = s.params := by
  cases h with
  | inner _ h => exact h.params
  | pays _ _ h => exact h.params
  | slash h => exact (slash_sameOuter h).params
  | beginUnbonding _ h => exact h.params
  | completeUnbonding _ _ _ => exact rfl
  | beginRedelegate _ h _ _ _ => exact h.params
  | completeRedelegate _ _ => exact rfl

end Steps

end Tepleton.Stake
