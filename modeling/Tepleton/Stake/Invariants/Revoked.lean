import Tepleton.Stake.Invariants.PubKeys

/-!
# Revoked validators

A revoked validator is not bonded, whatever its update does to other validators: `UpdateValidator`
unbonds it before anything else, and the walk over the by-power index passes it by.

The flag itself is changed by `Revoke`, by `Unrevoke`, and when the owner of a validator unbonds the
last of its own shares.  Only `Unrevoke` takes it away, so a key whose validators are revoked stays
so until it is unrevoked or a new validator is created with it.
-/

namespace Tepleton.Stake

open Lib

/-- A validator that is revoked is not bonded. -/
def Validator.Barred (v : Validator) : Prop := v.revoked = true → v.status ≠ .bonded

/-- No revoked validator is bonded. -/
def RevokedUnbonded (s : Store) : Prop := ∀ a v, s.getValidator a = some v → v.Barred

namespace RevokedUnbonded

variable {s s' : Store} {w v v' : Validator}

theorem insert (hs : RevokedUnbonded s) (hw : w.Barred)
    (hinsert : s'.validators = s.validators.insert w.owner w) : RevokedUnbonded s' := by
  simp only [RevokedUnbonded, Store.getValidator, hinsert]
  exact KVStore.forall_insert hs hw

theorem setValidator (hs : RevokedUnbonded s) (hw : w.Barred) : RevokedUnbonded (s.setValidator w) :=
  hs.insert hw rfl

theorem bondValidator (hs : RevokedUnbonded s) (henters : v.Enters)
    (h : s.bondValidator v = .ok (s', v')) : RevokedUnbonded s' ∧ v'.Barred := by
  obtain ⟨-, pool, hstatus, rfl⟩ := Store.bondValidator_eq_ok.mp h
  have hv' : v'.Barred := by
    intro hrevoked
    rw [(Validator.updateStatus_eq_ok hstatus).1] at hrevoked
    exact absurd hrevoked (by simp [henters.2])
  exact ⟨hs.insert hv' rfl, hv'⟩

theorem unbondValidator (hs : RevokedUnbonded s) (h : s.unbondValidator v = .ok (s', v')) :
    RevokedUnbonded s' ∧ v'.status = .unbonded := by
  obtain ⟨-, pool, hstatus, rfl⟩ := Store.unbondValidator_eq_ok.mp h
  have hv' : v'.status = .unbonded := by
    rw [(Validator.updateStatus_eq_ok hstatus).1]
    rfl
  exact ⟨hs.insert (fun _ => by simp [hv']) rfl, hv'⟩

theorem updateBondedValidators {new : Validator} {updated : Option Validator}
    (hs : RevokedUnbonded s) (hnew : new.Barred)
    (h : s.updateBondedValidators new = .ok (s', updated)) :
    RevokedUnbonded s' ∧ (updated.getD new).Barred := by
  simp only [Store.updateBondedValidators, bind_eq_ok, pure_eq_ok, Prod.mk.injEq] at h
  obtain ⟨l, hloop, s'', hkick, rfl, rfl⟩ := h
  have hl : RevokedUnbonded l.store ∧ (l.updatedVal.getD new).Barred := by
    refine BondLoop.loop_invariant
      (fun l => RevokedUnbonded l.store ∧ (l.updatedVal.getD new).Barred) ?_ ?_ ?_ hloop
    · rintro l a l' ⟨hstore, hcopy⟩ hnext
      obtain ⟨w, -, ⟨henters, t, w', hbond, rfl⟩ | ⟨-, -, rfl⟩⟩ := BondLoop.next_eq_ok hnext
      · obtain ⟨hstore', hw'⟩ := hstore.bondValidator henters hbond
        refine ⟨hstore', ?_⟩
        dsimp only
        split_ifs
        · exact hw'
        · exact hcopy
      · exact ⟨hstore, hcopy⟩
    · rintro l l' ⟨hstore, hcopy⟩ hfinish
      obtain ⟨power, cliff, rfl⟩ := BondLoop.finish_eq_ok hfinish
      exact ⟨hstore, hcopy⟩
    · exact ⟨hs, hnew⟩
  refine ⟨?_, hl.2⟩
  rcases Store.kick_eq_ok.mp hkick with ⟨-, rfl⟩ | ⟨addr, v, v', -, -, hunbond⟩
  · exact hl.1
  · exact (hl.1.unbondValidator hunbond).1

theorem rerank {ctx : Ctx} {key : Bytes} (hs : RevokedUnbonded s)
    (hw : s.getValidator v.owner = some w) (hstatus : v.status = w.status)
    (h : s.rerank ctx v = .ok (s', v', key)) : RevokedUnbonded s' ∧ v'.Barred := by
  obtain ⟨oldKey, -, -, hcase⟩ := Store.rerank_cases hw h
  rcases hcase with ⟨-, -, s₀, v₀, hunbond, rfl, rfl⟩ | ⟨hrevoked, -, rfl, rfl⟩ | ⟨hold, rfl, rfl⟩
  · obtain ⟨hs₀, hv₀⟩ := hs.unbondValidator hunbond
    refine ⟨hs₀, fun _ => ?_⟩
    show v₀.status ≠ .bonded
    simp [hv₀]
  · refine ⟨hs, fun hrevoked' => ?_⟩
    exact absurd (hrevoked.symm.trans hrevoked') (by decide)
  · refine ⟨hs, fun _ => ?_⟩
    show v.status ≠ .bonded
    rwa [hstatus]

theorem updated {ctx : Ctx} (hs : RevokedUnbonded s) (hw : s.getValidator v.owner = some w)
    (hstatus : v.status = w.status) (h : s.updateValidator ctx v = .ok (s', v')) :
    RevokedUnbonded s' := by
  obtain ⟨s₁, v₁, key, hrerank, hcase⟩ := Store.updateValidator_cases h
  obtain ⟨hs₁, hv₁⟩ := hs.rerank hw hstatus hrerank
  rcases hcase with ⟨-, -, rfl⟩ | ⟨-, -, -, rfl⟩ | ⟨-, -, s₂, updated, hwalk, rfl, rfl⟩
  · exact hs₁.insert hv₁ rfl
  · exact hs₁.setValidator hv₁
  · obtain ⟨hs₂, hcopy⟩ := hs₁.updateBondedValidators hv₁ hwalk
    exact hs₂.setValidator hcopy

theorem registered {s₀ : Store} {msg : MsgCreateValidator} (hs : RevokedUnbonded s)
    (h : registerValidator s msg = .ok (s₀, w)) : RevokedUnbonded s₀ := by
  obtain ⟨-, -, hw, rfl⟩ := registerValidator_eq_ok h
  refine hs.insert ?_ rfl
  intro hrevoked
  rw [hw] at hrevoked
  cases hrevoked

theorem changed {s₁ : Store} (hs : RevokedUnbonded s) (h : Changed s s₁ w v) :
    RevokedUnbonded s₁ := by
  intro a u hu
  rw [h.getValidator] at hu
  exact hs a u hu

theorem removed {a : Address} (hs : RevokedUnbonded s) (hv : s.getValidator a = some v)
    (h : s.removeValidator a = .ok s') : RevokedUnbonded s' :=
  fun b u hu => hs b u ((removeValidator_getValidator hv h b u).mp hu).2

end RevokedUnbonded

theorem revokedUnbonded_maintained :
    Maintains (fun _ => RevokedUnbonded)
      (fun _ s v => RevokedUnbonded s ∧ ∀ w, s.getValidator v.owner = some w → v.status = w.status)
      (fun _ _ _ => True) (fun _ _ => True) where
  register _ hs _ hregister hchanged := by
    refine ⟨(hs.registered hregister).changed hchanged, fun w hw => ?_⟩
    exact hchanged.record_eq hw ▸ hchanged.status
  change _ hs hchanged :=
    ⟨hs.changed hchanged, fun w hw => hchanged.record_eq hw ▸ hchanged.status⟩
  update _ hJ _ hw hupdate := hJ.1.updated hw (hJ.2 _ hw) hupdate
  remove hwell hJ _ hw hupdate _ _ hremove := by
    have hupdated := Store.updateValidator_updated hwell.validators hw hupdate
    exact (hJ.1.updated hw (hJ.2 _ hw) hupdate).removed hupdated.self hremove
  records _ _ _ _ _ _ hs := hs

/-! ## Keys whose validators are revoked -/

/-- Every stored validator with the key is revoked. -/
def KeyRevoked (pk : PubKey) (s : Store) : Prop :=
  ∀ a v, s.getValidator a = some v → v.pubKey = pk → v.revoked = true

/-- The copy handed to `updateValidator` is revoked if it has the key. -/
def CopyRevoked (pk : PubKey) (_ : Ctx) (_ : Store) (v : Validator) : Prop :=
  v.pubKey = pk → v.revoked = true

namespace KeyRevoked

variable {pk : PubKey} {ctx : Ctx} {s s' : Store} {w v v' : Validator}

theorem updated (hs : KeyRevoked pk s) (hv : v.pubKey = pk → v.revoked = true)
    (h : Store.Updated v s s' v') : KeyRevoked pk s' := by
  intro a u hu hpk
  by_cases ha : a = v.owner
  · rw [ha, h.stored] at hu
    obtain rfl := Option.some.inj hu
    rw [Validator.pubKey_eq_of_identity h.identity] at hpk
    rw [Validator.revoked_eq_of_identity h.identity, hv hpk]
  · obtain ⟨u₀, hu₀, hcore⟩ := h.before ha hu
    have hidentity := Validator.identity_eq_of_core hcore
    rw [Validator.pubKey_eq_of_identity hidentity] at hpk
    rw [Validator.revoked_eq_of_identity hidentity, hs a u₀ hu₀ hpk]

theorem changed {s₁ : Store} (hs : KeyRevoked pk s) (h : Changed s s₁ w v) : KeyRevoked pk s₁ := by
  intro a u hu
  rw [h.getValidator] at hu
  exact hs a u hu

theorem registered {s₀ : Store} {msg : MsgCreateValidator} (hs : KeyRevoked pk s)
    (hpk : msg.pubKey ≠ pk) (h : registerValidator s msg = .ok (s₀, w)) : KeyRevoked pk s₀ := by
  obtain ⟨-, -, hw, -⟩ := registerValidator_eq_ok h
  intro a u hu hupk
  rcases (registerValidator_getValidator h a u).mp hu with ⟨-, rfl⟩ | ⟨-, hu⟩
  · rw [hw] at hupk
    exact absurd hupk hpk
  · exact hs a u hu hupk

theorem removed {a : Address} (hs : KeyRevoked pk s) (hv : s.getValidator a = some v)
    (h : s.removeValidator a = .ok s') : KeyRevoked pk s' :=
  fun b u hu => hs b u ((removeValidator_getValidator hv h b u).mp hu).2

end KeyRevoked

theorem keyRevoked_maintained (pk : PubKey) :
    Maintains (fun _ => KeyRevoked pk) (fun _ s _ => KeyRevoked pk s) (CopyRevoked pk)
      (fun _ msg => msg.pubKey ≠ pk) where
  register _ hs hpk hregister hchanged := (hs.registered hpk hregister).changed hchanged
  change _ hs hchanged := hs.changed hchanged
  update hwell hs hv hw hupdate :=
    hs.updated hv (Store.updateValidator_updated hwell.validators hw hupdate)
  remove hwell hs hv hw hupdate _ _ hremove := by
    have hupdated := Store.updateValidator_updated hwell.validators hw hupdate
    exact (hs.updated hv hupdated).removed hupdated.self hremove
  records _ _ _ _ _ _ hs := hs

/-- The step neither takes the flag away from the key nor creates a validator with it. -/
def Op.Spares (pk : PubKey) : Op → Prop
  | .createValidator msg => msg.pubKey ≠ pk
  | .unrevoke pubkey => pubkey ≠ pk
  | _ => True

namespace KeyRevoked

variable {pk : PubKey} {ctx : Ctx} {s s' : Store}

theorem prepareDelegate {delegatorAddr a : Address} {coin : Coin} {w : Validator}
    (hs : KeyRevoked pk s) (hw : s.getValidator a = some w) :
    Returns (fun call => CopyRevoked pk ctx call.1 call.2.1)
      (s.prepareDelegate ctx delegatorAddr coin w) := by
  refine .intro fun ⟨s₁, v, issued⟩ h hpk => ?_
  simp only [Store.prepareDelegate, bind_eq_ok, pure_eq_ok, Prod.exists, Prod.mk.injEq] at h
  obtain ⟨accounts, -, amount, -, v', pool, issued', hadd, rfl, rfl, rfl⟩ := h
  have hv := (Validator.addTokensFromDel_eq_ok hadd).1
  rw [hv] at hpk ⊢
  exact hs a w hw hpk

theorem prepareUnbond {delegatorAddr validatorAddr : Address} {shares : ℚ} (hs : KeyRevoked pk s) :
    Returns (fun call => CopyRevoked pk ctx call.1 call.2.1)
      (s.prepareUnbond ctx delegatorAddr validatorAddr shares) := by
  refine .intro fun ⟨s₁, v, amount⟩ h hpk => ?_
  obtain ⟨d, w, -, -, hw, pool, hremove, hrevoked, -⟩ := prepareUnbond_eq_ok h
  have hpubKey : v.pubKey = w.pubKey := by
    rw [(Validator.removeDelShares_eq_ok hremove).1]
    rfl
  show v.revoked = true
  rw [hrevoked, hs _ w hw (hpubKey.symm.trans hpk), Bool.true_or]

theorem prepareSlash {pubkey : PubKey} {infractionHeight power : ℤ} {slashFactor : ℚ}
    (hs : KeyRevoked pk s) :
    Returns (fun call => CopyRevoked pk ctx call.1 call.2)
      (s.prepareSlash ctx pubkey infractionHeight power slashFactor) := by
  refine .intro fun ⟨s₂, v⟩ h hpk => ?_
  obtain ⟨w, s₁, remaining, hw, hrecords, hslash⟩ := prepareSlash_eq_ok h
  obtain ⟨a, -, hget⟩ := Option.bind_eq_some_iff.mp hw
  simp only [Store.slashValidator, bind_eq_ok, pure_eq_ok, Prod.exists, Prod.mk.injEq] at hslash
  obtain ⟨held, -, v', pool, burned, hremove, rfl, rfl⟩ := hslash
  have hv := (Validator.removePoolShares_eq_ok hremove).1
  rw [hv] at hpk ⊢
  exact hs a w hget hpk

/-- Every update of such a step is one of a copy that is revoked if it has the key. -/
theorem updatesMeet {op : Op} (hwell : s.WellFormed) (hentries : PubKeyEntries s)
    (hs : KeyRevoked pk s) (hspares : op.Spares pk) (h : deliver ctx s op = .ok s') :
    UpdatesMeet (CopyRevoked pk) ctx s op := by
  cases op with
  | createValidator msg =>
    refine .intro ?_
    rintro ⟨s₁, v⟩ hcreate hpk
    simp only [prepareCreateValidator, bind_eq_ok, pure_eq_ok, Prod.exists] at hcreate
    obtain ⟨s₀, w, hregister, s₂, v₂, issued, hprepare, hcall⟩ := hcreate
    obtain ⟨rfl, rfl⟩ := Prod.mk.inj hcall
    obtain ⟨hwell₀, hstored⟩ := registerValidator_wellFormed hwell hregister
    have hchanged := prepareDelegate_changed hwell₀ hstored hprepare
    obtain ⟨-, -, hw, -⟩ := registerValidator_eq_ok hregister
    have hpubKey : v₂.pubKey = msg.pubKey := by rw [hchanged.pubKey, hw]; rfl
    exact absurd (hpubKey.symm.trans hpk) hspares
  | editValidator msg =>
    intro w hw
    exact .intro fun description _ hpk => hs _ w hw hpk
  | delegate msg =>
    intro w hw
    exact hs.prepareDelegate hw
  | beginUnbonding msg => exact hs.prepareUnbond
  | beginRedelegate msg =>
    obtain ⟨_, hbasic, -⟩ := bind_eq_ok.mp h
    refine ⟨hs.prepareUnbond, .intro ?_⟩
    rintro ⟨s₁, amount⟩ hunbond w hw
    have hs₁ := ((keyRevoked_maintained pk).unbond hwell hs (ne_zero_of_validateShares hbasic)
      hs.prepareUnbond hunbond).2
    exact hs₁.prepareDelegate hw
  | revoke pubkey => exact fun w _ _ => rfl
  | unrevoke pubkey =>
    intro w hw hpk
    exact absurd ((hentries.found hw).symm.trans hpk) hspares
  | slash pubkey infractionHeight power slashFactor => exact hs.prepareSlash
  | completeUnbonding msg => trivial
  | completeRedelegate msg => trivial
  | endBlock blockTime => trivial

theorem deliver (op : Op) (hwell : s.WellFormed) (hentries : PubKeyEntries s) (hs : KeyRevoked pk s)
    (hrecent : op.Recent ctx) (hspares : op.Spares pk) (h : Stake.deliver ctx s op = .ok s') :
    KeyRevoked pk s' := by
  refine ((keyRevoked_maintained pk).deliver hwell hs hrecent
    (hs.updatesMeet hwell hentries hspares h) ?_ h).2
  cases op <;> trivial

/-- Once the validator with a key has been revoked, all validators with this key are: there is only
the one. -/
theorem of_revoke (hwell : s.WellFormed) (hindexed : PubKeysIndexed s)
    (h : s.revoke ctx pk = .ok s') : KeyRevoked pk s' := by
  unfold Store.revoke Store.setRevoked at h
  cases hw : s.getValidatorByPubKey pk with
  | none =>
    rw [hw] at h
    cases h
  | some w =>
    simp only [hw, bind_eq_ok, pure_eq_ok, Prod.exists] at h
    obtain ⟨s₁, v', hupdate, rfl⟩ := h
    obtain ⟨a, ha, hget⟩ := Option.bind_eq_some_iff.mp hw
    have hstored : s.getValidator w.owner = some w := hwell.validators.stored hget
    have hupdated := Store.updateValidator_updated (w := w) (v := { w with revoked := true })
      hwell.validators hstored hupdate
    intro b u hu hpk
    by_cases hb : b = w.owner
    · rw [hb, hupdated.stored] at hu
      obtain rfl := Option.some.inj hu
      exact Validator.revoked_eq_of_identity hupdated.identity
    · -- a second validator with the key would have the index entry
      obtain ⟨u₀, hu₀, hcore⟩ := hupdated.before hb hu
      have hentry := hindexed b u₀ hu₀
      rw [← Validator.pubKey_eq_of_identity (Validator.identity_eq_of_core hcore), hpk, ha] at hentry
      obtain rfl := Option.some.inj hentry
      exact absurd (hwell.validators a w hget).symm hb

end KeyRevoked

end Tepleton.Stake
