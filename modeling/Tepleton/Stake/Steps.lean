import Tepleton.Stake.Inversion

/-!
# The steps of the chain, taken apart

`Keeps` and `Maintains` are the induction step shared by the invariants of the staking store: they
ask what happens to the invariant at the preparation of an update, at the update itself and at the
removal that may follow.  `Maintains.deliver` goes through the messages once and for all, and
`Maintains.run` through the runs.
-/

namespace Tepleton.Stake

open Lib

/-! ## A condition on the updates a step makes -/

section Updates

variable (P : Ctx → Store → Validator → Prop) (ctx : Ctx) (s : Store)

/-- `P` holds of the store and the validator at every call of `updateValidator` that the step
makes.  A redelegation makes two, the second in the state its unbonding has led to. -/
def UpdatesMeet : Op → Prop
  | .createValidator msg =>
    Returns (fun call => P ctx call.1 call.2) (prepareCreateValidator ctx s msg)
  | .editValidator msg =>
    ∀ v ∈ s.getValidator msg.validatorAddr,
      Returns (fun description => P ctx s { v with description })
        (v.description.updateDescription msg.description)
  | .delegate msg =>
    ∀ v ∈ s.getValidator msg.validatorAddr,
      Returns (fun call => P ctx call.1 call.2.1)
        (s.prepareDelegate ctx msg.delegatorAddr msg.bond v)
  | .beginUnbonding msg =>
    Returns (fun call => P ctx call.1 call.2.1)
      (s.prepareUnbond ctx msg.delegatorAddr msg.validatorAddr msg.sharesAmount)
  | .beginRedelegate msg =>
    Returns (fun call => P ctx call.1 call.2.1)
      (s.prepareUnbond ctx msg.delegatorAddr msg.validatorSrcAddr msg.sharesAmount) ∧
    Returns (fun unbonded => ∀ v ∈ unbonded.1.getValidator msg.validatorDstAddr,
        Returns (fun call => P ctx call.1 call.2.1) (unbonded.1.prepareDelegate ctx
          msg.delegatorAddr ⟨unbonded.1.params.bondDenom, unbonded.2⟩ v))
      (s.unbond ctx msg.delegatorAddr msg.validatorSrcAddr msg.sharesAmount)
  | .revoke pubkey => ∀ v ∈ s.getValidatorByPubKey pubkey, P ctx s { v with revoked := true }
  | .unrevoke pubkey => ∀ v ∈ s.getValidatorByPubKey pubkey, P ctx s { v with revoked := false }
  | .slash pubkey infractionHeight power slashFactor =>
    Returns (fun call => P ctx call.1 call.2)
      (s.prepareSlash ctx pubkey infractionHeight power slashFactor)
  | .completeUnbonding _ => True
  | .completeRedelegate _ => True
  | .endBlock _ => True

instance [∀ ctx s v, Decidable (P ctx s v)] (op : Op) : Decidable (UpdatesMeet P ctx s op) :=
  match op with
  | .createValidator _ => inferInstanceAs (Decidable (Returns _ _))
  | .editValidator _ => inferInstanceAs (Decidable (∀ v ∈ _, Returns _ _))
  | .delegate _ => inferInstanceAs (Decidable (∀ v ∈ _, Returns _ _))
  | .beginUnbonding _ => inferInstanceAs (Decidable (Returns _ _))
  | .beginRedelegate _ => inferInstanceAs (Decidable (Returns _ _ ∧ Returns _ _))
  | .revoke _ => inferInstanceAs (Decidable (∀ v ∈ _, P _ _ _))
  | .unrevoke _ => inferInstanceAs (Decidable (∀ v ∈ _, P _ _ _))
  | .slash _ _ _ _ => inferInstanceAs (Decidable (Returns _ _))
  | .completeUnbonding _ => inferInstanceAs (Decidable True)
  | .completeRedelegate _ => inferInstanceAs (Decidable True)
  | .endBlock _ => inferInstanceAs (Decidable True)

end Updates

/-! ## The induction step of an invariant -/

/-- A condition on the creation of validators: `R` holds of the store and the message. -/
def CreationMeets (R : Store → MsgCreateValidator → Prop) (s : Store) : Op → Prop
  | .createValidator msg => R s msg
  | _ => True

instance (R : Store → MsgCreateValidator → Prop) [∀ s msg, Decidable (R s msg)] (s : Store)
    (op : Op) : Decidable (CreationMeets R s op) :=
  match op with
  | .createValidator msg => inferInstanceAs (Decidable (R s msg))
  | .editValidator _ | .delegate _ | .beginUnbonding _ | .completeUnbonding _
  | .beginRedelegate _ | .completeRedelegate _ | .revoke _ | .unrevoke _ | .slash _ _ _ _
  | .endBlock _ => inferInstanceAs (Decidable True)

/-- `I` is kept by changes of validators whose updates meet `P` and whose creations meet `R`; `J` is
what holds when `updateValidator` is called. -/
structure Keeps (I : Ctx → Store → Prop) (J P : Ctx → Store → Validator → Prop)
    (R : Store → MsgCreateValidator → Prop) : Prop where
  register : ∀ {ctx s msg s₀ w s₁ v}, s.WellFormed → I ctx s → R s msg →
    registerValidator s msg = .ok (s₀, w) → Changed s₀ s₁ w v → J ctx s₁ v
  change : ∀ {ctx s s₁ w v}, s.WellFormed → I ctx s → Changed s s₁ w v → J ctx s₁ v
  update : ∀ {ctx s w v s' v'}, s.WellFormed → J ctx s v → P ctx s v →
    s.getValidator v.owner = some w → s.updateValidator ctx v = .ok (s', v') → I ctx s'
  remove : ∀ {ctx s w v s' v' s''}, s.WellFormed → J ctx s v → P ctx s v →
    s.getValidator v.owner = some w → s.updateValidator ctx v = .ok (s', v') →
    v.delegatorShares = 0 → v.poolShares.amount = 0 → s'.removeValidator v'.owner = .ok s'' →
    I ctx s''

/-- `I` is kept by changes of validators and does not depend on accounts, unbonding delegations and
redelegations. -/
structure Maintains (I : Ctx → Store → Prop) (J P : Ctx → Store → Validator → Prop)
    (R : Store → MsgCreateValidator → Prop) : Prop extends Keeps I J P R where
  records : ∀ {ctx} {s : Store} (accounts unbondingDelegations unbondingDelegationsByVal
      redelegations redelegationsByValSrc redelegationsByValDst), I ctx s →
    I ctx { s with accounts, unbondingDelegations, unbondingDelegationsByVal, redelegations,
                   redelegationsByValSrc, redelegationsByValDst }

namespace Keeps

variable {I : Ctx → Store → Prop} {J P : Ctx → Store → Validator → Prop}
  {R : Store → MsgCreateValidator → Prop} {ctx : Ctx} {s s' : Store}

variable {w : Validator} {delegatorAddr : Address}

theorem updates (m : Keeps I J P R) {v v' : Validator} (hs : s.WellFormed) (hJ : J ctx s v)
    (hP : P ctx s v) (hw : s.getValidator v.owner = some w)
    (h : s.updateValidator ctx v = .ok (s', v')) : s'.WellFormed ∧ I ctx s' := by
  have hupdated := Store.updateValidator_updated hs.validators hw h
  exact ⟨hs.of_frame hupdated.touches.keyed hupdated.touches.frame, m.update hs hJ hP hw h⟩

theorem changes (m : Keeps I J P R) {s₁ : Store} {v v' : Validator} (hs : s.WellFormed)
    (hI : I ctx s) (hchanged : Changed s s₁ w v) (hP : P ctx s₁ v)
    (h : s₁.updateValidator ctx v = .ok (s', v')) : s'.WellFormed ∧ I ctx s' := by
  exact m.updates (hchanged.wellFormed hs) (m.change hs hI hchanged) hP hchanged.found h

theorem delegate (m : Keeps I J P R) {coin : Coin} {issued : ℚ} (hs : s.WellFormed) (hI : I ctx s)
    (hw : s.getValidator w.owner = some w)
    (hP : Returns (fun call => P ctx call.1 call.2.1) (s.prepareDelegate ctx delegatorAddr coin w))
    (h : s.delegate ctx delegatorAddr coin w = .ok (s', issued)) : s'.WellFormed ∧ I ctx s' := by
  simp only [Store.delegate, bind_eq_ok, pure_eq_ok, Prod.exists, Prod.mk.injEq] at h
  obtain ⟨s₁, v, issued', hprepare, s₂, v', hupdate, rfl, rfl⟩ := h
  exact m.changes hs hI (prepareDelegate_changed hs hw hprepare) (hP.of_ok hprepare) hupdate

theorem unbond (m : Keeps I J P R) {validatorAddr : Address} {shares : ℚ} {amount : ℤ}
    (hs : s.WellFormed) (hI : I ctx s) (hshares : shares ≠ 0)
    (hP : Returns (fun call => P ctx call.1 call.2.1)
      (s.prepareUnbond ctx delegatorAddr validatorAddr shares))
    (h : s.unbond ctx delegatorAddr validatorAddr shares = .ok (s', amount)) :
    s'.WellFormed ∧ I ctx s' := by
  simp only [Store.unbond, bind_eq_ok, pure_eq_ok, Prod.exists, Prod.mk.injEq] at h
  obtain ⟨s₁, v, amount', hprepare, s₂, v', hupdate, s₃, hremove, rfl, rfl⟩ := h
  obtain ⟨w, -, hchanged⟩ := prepareUnbond_changed hs hprepare
  have hP' := hP.of_ok hprepare
  unfold Store.removeIfEmpty at hremove
  split_ifs at hremove with hempty
  · have hs₁ := hchanged.wellFormed hs
    have hJ := m.change hs hI hchanged
    have hupdated := Store.updateValidator_updated hs₁.validators hchanged.found hupdate
    rw [Validator.delegatorShares_eq_of_identity hupdated.identity] at hempty
    have hamount : v.poolShares.amount = 0 := by
      obtain ⟨d, u, -, -, -, pool, hshares', -, -⟩ := prepareUnbond_eq_ok hprepare
      exact Validator.removeDelShares_all hshares' hshares hempty
    refine ⟨?_, m.remove hs₁ hJ hP' hchanged.found hupdate hempty hamount hremove⟩
    exact removeValidator_wellFormed (hs₁.of_frame hupdated.touches.keyed hupdated.touches.frame)
      hupdated.self hremove
  · cases hremove
    exact m.changes hs hI hchanged hP' hupdate

theorem create (m : Keeps I J P R) {msg : MsgCreateValidator} (hs : s.WellFormed) (hI : I ctx s)
    (hP : Returns (fun call => P ctx call.1 call.2) (prepareCreateValidator ctx s msg))
    (hR : R s msg) (h : handleMsgCreateValidator ctx s msg = .ok s') :
    s'.WellFormed ∧ I ctx s' := by
  obtain ⟨s₀, w, s₁, v, v', hregister, hcall, hchanged, hupdate⟩ :=
    handleMsgCreateValidator_eq_ok hs h
  have hs₀ := (registerValidator_wellFormed hs hregister).1
  exact m.updates (hchanged.wellFormed hs₀) (m.register hs hI hR hregister hchanged)
    (hP.of_ok hcall) hchanged.found hupdate

theorem edit (m : Keeps I J P R) {msg : MsgEditValidator} (hs : s.WellFormed) (hI : I ctx s)
    (hP : UpdatesMeet P ctx s (.editValidator msg))
    (h : handleMsgEditValidator ctx s msg = .ok s') : s'.WellFormed ∧ I ctx s' := by
  unfold handleMsgEditValidator at h
  cases hw : s.getValidator msg.validatorAddr with
  | none =>
    rw [hw] at h
    cases h
  | some w =>
    simp only [hw, bind_eq_ok, pure_eq_ok, Prod.exists] at h
    obtain ⟨description, hdescription, s₁, v', hupdate, rfl⟩ := h
    have hchanged : Changed s s w { w with description } :=
      .of_copy hs (hs.validators.stored hw) rfl rfl rfl rfl rfl rfl
    exact m.changes hs hI hchanged ((hP w hw).of_ok hdescription) hupdate

theorem setRevoked (m : Keeps I J P R) {pubkey : PubKey} {revoked : Bool} (hs : s.WellFormed)
    (hI : I ctx s) (hP : ∀ v ∈ s.getValidatorByPubKey pubkey, P ctx s { v with revoked })
    (h : s.setRevoked ctx pubkey revoked = .ok s') : s'.WellFormed ∧ I ctx s' := by
  unfold Store.setRevoked at h
  cases hw : s.getValidatorByPubKey pubkey with
  | none =>
    rw [hw] at h
    cases h
  | some w =>
    simp only [hw, bind_eq_ok, pure_eq_ok, Prod.exists] at h
    obtain ⟨s₁, v', hupdate, rfl⟩ := h
    obtain ⟨a, -, hget⟩ := Option.bind_eq_some_iff.mp hw
    have hchanged : Changed s s w { w with revoked } :=
      .of_copy hs (hs.validators.stored hget) rfl rfl rfl rfl rfl rfl
    exact m.changes hs hI hchanged (hP w hw) hupdate

theorem slash (m : Keeps I J P R) {pubkey : PubKey} {infractionHeight power : ℤ} {slashFactor : ℚ}
    (hs : s.WellFormed) (hI : I ctx s)
    (hrecent : infractionHeight = ctx.blockHeight ∨ 0 < infractionHeight)
    (hP : Returns (fun call => P ctx call.1 call.2)
      (s.prepareSlash ctx pubkey infractionHeight power slashFactor))
    (h : s.slash ctx pubkey infractionHeight power slashFactor = .ok s') :
    s'.WellFormed ∧ I ctx s' := by
  simp only [Store.slash, bind_eq_ok, pure_eq_ok, Prod.exists] at h
  obtain ⟨s₁, v, hprepare, s₂, v', hupdate, rfl⟩ := h
  obtain ⟨w, -, hchanged⟩ := prepareSlash_changed hs hrecent hprepare
  exact m.changes hs hI hchanged (hP.of_ok hprepare) hupdate

theorem beginUnbonding (m : Keeps I J P R) {validatorAddr : Address} {shares : ℚ}
    (hs : s.WellFormed) (hI : I ctx s) (hshares : shares ≠ 0)
    (hP : Returns (fun call => P ctx call.1 call.2.1)
      (s.prepareUnbond ctx delegatorAddr validatorAddr shares))
    (h : s.beginUnbonding ctx delegatorAddr validatorAddr shares = .ok s') :
    ∃ s₁ amount ubd, s.unbond ctx delegatorAddr validatorAddr shares = .ok (s₁, amount) ∧
      s₁.WellFormed ∧ I ctx s₁ ∧ ubd.delegatorAddr = delegatorAddr ∧
      ubd.validatorAddr = validatorAddr ∧ ubd.balance = ⟨s₁.params.bondDenom, amount⟩ ∧
      ubd.creationHeight = 0 ∧ s' = s₁.setUnbondingDelegation ubd := by
  simp only [Store.beginUnbonding, bind_eq_ok, pure_eq_ok, Prod.exists] at h
  obtain ⟨s₁, amount, hunbond, rfl⟩ := h
  obtain ⟨hs₁, hI₁⟩ := m.unbond hs hI hshares hP hunbond
  exact ⟨s₁, amount, _, hunbond, hs₁, hI₁, rfl, rfl, rfl, rfl, rfl⟩

theorem beginRedelegation (m : Keeps I J P R) {msg : MsgBeginRedelegate}
    (hs : s.WellFormed) (hI : I ctx s) (hshares : msg.sharesAmount ≠ 0)
    (hP : UpdatesMeet P ctx s (.beginRedelegate msg))
    (h : handleMsgBeginRedelegate ctx s msg = .ok s') :
    ∃ s₁ red, s₁.WellFormed ∧ I ctx s₁ ∧ red.creationHeight = 0 ∧ s' = s₁.setRedelegation red := by
  unfold handleMsgBeginRedelegate Store.beginRedelegation at h
  split_ifs at h
  simp only [bind_eq_ok, Prod.exists] at h
  obtain ⟨s₁, amount, hunbond, h⟩ := h
  obtain ⟨hs₁, hI₁⟩ := m.unbond hs hI hshares hP.1 hunbond
  cases hw : s₁.getValidator msg.validatorDstAddr with
  | none =>
    simp only [hw, throw_eq_ok] at h
  | some w =>
    simp only [hw, bind_eq_ok, pure_eq_ok, Prod.exists] at h
    obtain ⟨s₂, issued, hdelegate, rfl⟩ := h
    obtain ⟨hs₂, hI₂⟩ := m.delegate hs₁ hI₁ (hs₁.validators.stored hw) (hP.2.of_ok hunbond w hw)
      hdelegate
    exact ⟨s₂, _, hs₂, hI₂, rfl, rfl⟩

end Keeps

namespace Maintains

variable {I : Ctx → Store → Prop} {J P : Ctx → Store → Validator → Prop}
  {R : Store → MsgCreateValidator → Prop} {ctx : Ctx} {s s' : Store}

theorem completeUnbonding (m : Maintains I J P R) {delegatorAddr validatorAddr : Address}
    (hs : s.WellFormed) (hI : I ctx s)
    (h : s.completeUnbonding ctx delegatorAddr validatorAddr = .ok s') :
    s'.WellFormed ∧ I ctx s' := by
  obtain ⟨ubd, accounts, -, -, -, rfl⟩ := completeUnbonding_eq_ok h
  exact ⟨hs.removeUnbondingDelegation _ _, m.records (s := s) accounts _ _ _ _ _ hI⟩

theorem completeRedelegation (m : Maintains I J P R) {delegatorAddr src dst : Address}
    (hs : s.WellFormed) (hI : I ctx s)
    (h : s.completeRedelegation ctx delegatorAddr src dst = .ok s') : s'.WellFormed ∧ I ctx s' := by
  obtain ⟨red, -, -, rfl⟩ := completeRedelegation_eq_ok h
  exact ⟨hs.removeRedelegation _, m.records _ _ _ _ _ _ hI⟩

/-- The invariant is kept by every message and keeper call whose updates meet the condition. -/
theorem deliver (m : Maintains I J P R) {op : Op} (hs : s.WellFormed) (hI : I ctx s)
    (hrecent : op.Recent ctx) (hP : UpdatesMeet P ctx s op) (hR : CreationMeets R s op)
    (h : deliver ctx s op = .ok s') : s'.WellFormed ∧ I ctx s' := by
  cases op with
  | createValidator msg =>
    obtain ⟨-, -, h⟩ := bind_eq_ok.mp h
    exact m.create hs hI hP hR h
  | editValidator msg =>
    obtain ⟨-, -, h⟩ := bind_eq_ok.mp h
    exact m.edit hs hI hP h
  | delegate msg =>
    obtain ⟨-, -, h⟩ := bind_eq_ok.mp h
    obtain ⟨w, issued, hw, hdelegate⟩ := handleMsgDelegate_eq_ok h
    exact m.delegate hs hI (hs.validators.stored hw) (hP w hw) hdelegate
  | beginUnbonding msg =>
    obtain ⟨_, hbasic, h⟩ := bind_eq_ok.mp h
    obtain ⟨s₁, amount, ubd, -, hs₁, hI₁, -, -, -, hcreation, rfl⟩ :=
      m.beginUnbonding hs hI (ne_zero_of_validateShares hbasic) hP h
    exact ⟨hs₁.setUnbondingDelegation hcreation, m.records _ _ _ _ _ _ hI₁⟩
  | completeUnbonding msg => exact m.completeUnbonding hs hI h
  | beginRedelegate msg =>
    obtain ⟨_, hbasic, h⟩ := bind_eq_ok.mp h
    obtain ⟨s₁, red, hs₁, hI₁, hcreation, rfl⟩ :=
      m.beginRedelegation hs hI (ne_zero_of_validateShares hbasic) hP h
    exact ⟨hs₁.setRedelegation hcreation, m.records _ _ _ _ _ _ hI₁⟩
  | completeRedelegate msg => exact m.completeRedelegation hs hI h
  | revoke pubkey | unrevoke pubkey => exact m.setRevoked hs hI hP h
  | slash pubkey infractionHeight power slashFactor => exact m.slash hs hI hrecent hP h
  | endBlock blockTime =>
    cases h
    exact ⟨hs, hI⟩

end Maintains

/-! ## Blocks and runs -/

/-- A step that meets a condition on its updates and one on creations, and slashes for recent
infractions only. -/
def Orderly (P : Ctx → Store → Validator → Prop) (R : Store → MsgCreateValidator → Prop)
    (st : State) (op : Op) : Prop :=
  op.Recent st.ctx ∧ UpdatesMeet P st.ctx st.store op ∧ CreationMeets R st.store op

instance (P : Ctx → Store → Validator → Prop) [∀ ctx s v, Decidable (P ctx s v)]
    (R : Store → MsgCreateValidator → Prop) [∀ s msg, Decidable (R s msg)] (st : State) (op : Op) :
    Decidable (Orderly P R st op) :=
  inferInstanceAs (Decidable (_ ∧ _ ∧ _))

theorem orderly_true {st : State} {op : Op} (hrecent : op.Recent st.ctx) :
    Orderly (fun _ _ _ => True) (fun _ _ => True) st op := by
  have htrue : ∀ {α : Type} (x : Outcome α), Returns (fun _ => True) x := by
    intro α x
    cases x <;> trivial
  cases op <;> simp_all [Orderly, UpdatesMeet, CreationMeets]

section Runs

variable {I : Ctx → Store → Prop} {J P : Ctx → Store → Validator → Prop}
  {R : Store → MsgCreateValidator → Prop}

/-- The end of a block leaves the invariant alone. -/
def KeptByEndBlock (I : Ctx → Store → Prop) : Prop :=
  ∀ {ctx s} looseTokens inflation blockTime, s.WellFormed → I ctx s →
    ctx.blockHeight + 1 < 2 ^ 63 →
    I ⟨ctx.blockHeight + 1, blockTime⟩ { s with
      pool := { s.pool with looseTokens, inflation }
      intraTxCounter := 0, tendermintUpdates := ∅ }

theorem Maintains.step (m : Maintains I J P R) (hend : KeptByEndBlock I) {st st' : State} {op : Op}
    (hst : st.store.WellFormed ∧ I st.ctx st.store) (horderly : Orderly P R st op)
    (h : step st op = .ok st') : st'.store.WellFormed ∧ I st'.ctx st'.store := by
  rcases step_cases h with ⟨blockTime, rfl⟩ | ⟨hctx, hdeliver⟩
  · obtain ⟨hheight, looseTokens, inflation, rfl⟩ := step_endBlock_eq_ok h
    exact ⟨{ hst.1 with }, hend looseTokens inflation blockTime hst.1 hst.2 hheight⟩
  · rw [hctx]
    exact m.deliver hst.1 hst.2 horderly.1 horderly.2.1 horderly.2.2 hdeliver

theorem Maintains.run (m : Maintains I J P R) (hend : KeptByEndBlock I) {start st : State}
    {history : List (State × Op)} (hwell : start.store.WellFormed) (hI : I start.ctx start.store)
    (hrun : Run Stake.step start history st) (horderly : Run.Meets (Orderly P R) history) :
    st.store.WellFormed ∧ I st.ctx st.store :=
  Run.invariant (fun st => st.store.WellFormed ∧ I st.ctx st.store) ⟨hwell, hI⟩
    (fun hst ho h => m.step hend hst ho h) hrun horderly

end Runs

theorem maintains_true :
    Maintains (fun _ _ => True) (fun _ _ _ => True) (fun _ _ _ => True) (fun _ _ => True) :=
  ⟨⟨fun _ _ _ _ _ => trivial, fun _ _ _ => trivial, fun _ _ _ _ _ => trivial,
    fun _ _ _ _ _ _ _ _ => trivial⟩, fun _ _ _ _ _ _ _ => trivial⟩

theorem step_wellFormed {st st' : State} {op : Op} (hwell : st.store.WellFormed)
    (hrecent : op.Recent st.ctx) (h : step st op = .ok st') : st'.store.WellFormed :=
  (maintains_true.step (fun _ _ _ _ _ _ => trivial) ⟨hwell, trivial⟩ (orderly_true hrecent) h).1

/-! ## A small chain for examples -/

namespace Example

/-- Accounts `[1]` to `[5]`, each with a thousand coins of the bond denomination. -/
def accounts : Auth.AccountStore :=
  ⟨([1, 2, 3, 4, 5] : List Byte).foldl
    (fun t a => t.insert [a] ⟨[⟨defaultParams.bondDenom, 1000⟩], none, a.val, 0⟩) ∅, 6⟩

/-- The first block of a chain with no validators and room for `maxValidators`. -/
def genesis (maxValidators : Fin (2 ^ 16)) : State :=
  ⟨⟨1, 0⟩, emptyStore { defaultParams with maxValidators }
    { initialPool with looseTokens := 5000 } accounts⟩

/-- Account `a` creates a validator with public key `100 + a`. -/
def create (a : Byte) (amount : ℤ) : Op :=
  .createValidator ⟨⟨"v", "", "", ""⟩, [a], [100 + a], ⟨defaultParams.bondDenom, amount⟩⟩

/-- Account `d` delegates to the validator of account `a`. -/
def delegate (d a : Byte) (amount : ℤ) : Op :=
  .delegate ⟨[d], [a], ⟨defaultParams.bondDenom, amount⟩⟩

/-- Account `d` begins to unbond from the validator of account `a`. -/
def unbond (d a : Byte) (shares : ℚ) : Op := .beginUnbonding ⟨[d], [a], shares⟩

/-- The validator of account `a` is revoked. -/
def revoke (a : Byte) : Op := .revoke [100 + a]

/-- With two places, the weaker of two bonded validators loses power and falls behind the third,
which is not bonded. -/
def cliffFallsBehind : List Op := [create 1 10, create 2 5, create 3 3, unbond 2 2 4]

end Example

end Tepleton.Stake
