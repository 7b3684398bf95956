import Tepleton.Slashing.Keeper
import Tepleton.Stake.Invariants.Revoked

/-!
# Jail terms

A double sign or too many missed blocks begin a jail term: the validators with the key are revoked,
and the signing info of the key says until when.  `Held` is what this amounts to in a later state,
and every step keeps it except two.

* The term is tied to the key, the revocation to the record of the validator.  The owner can unbond
  everything, which removes the record, and create a validator with the same key: it is not revoked,
  and it is bonded at once if there is room.
* The end of the term is an `int64`, so a term that begins late enough ends in the past.
-/

namespace Tepleton.Slashing

open Lib Stake

/-! ## The staking store under a jail term -/

/-- What the staking store satisfies as long as keys are not used twice. -/
structure KeysSound (s : Stake.Store) : Prop where
  wellFormed : s.WellFormed
  indexed : PubKeysIndexed s
  entries : PubKeyEntries s
  unbonded : RevokedUnbonded s

theorem KeysSound.deliver {ctx : Ctx} {s s' : Stake.Store} (hs : KeysSound s) (op : Stake.Op)
    (hrecent : op.Recent ctx)
    (hfree : CreationMeets (fun s msg => PubKeyFree s msg.pubKey) s op)
    (h : Stake.deliver ctx s op = .ok s') : KeysSound s' := by
  have horderly : Orderly (fun _ _ _ => True) (fun _ _ => True) ⟨ctx, s⟩ op := orderly_true hrecent
  obtain ⟨-, hany, hcreate⟩ := horderly
  obtain ⟨hwell, hindexed⟩ :=
    pubKeysIndexed_maintained.deliver hs.wellFormed hs.indexed hrecent hany hfree h
  have hentries :=
    pubKeyEntries_maintained.deliver hs.wellFormed hs.entries hrecent hany hcreate h
  have hunbonded :=
    revokedUnbonded_maintained.deliver hs.wellFormed hs.unbonded hrecent hany hcreate h
  exact ⟨hwell, hindexed, hentries.2, hunbonded.2⟩

theorem KeysSound.punish {ctx : Ctx} {s slashed s' : Stake.Store} {pubkey : PubKey}
    {infractionHeight power : ℤ} {slashFactor : ℚ} (hs : KeysSound s)
    (hrecent : infractionHeight = ctx.blockHeight ∨ 0 < infractionHeight)
    (hslash : s.slash ctx pubkey infractionHeight power slashFactor = .ok slashed)
    (hrevoke : slashed.revoke ctx pubkey = .ok s') :
    KeysSound s' ∧ KeyRevoked pubkey s' ∧ ∀ pk, KeyRevoked pk s → KeyRevoked pk s' := by
  have hslashed := hs.deliver (.slash pubkey infractionHeight power slashFactor) hrecent trivial hslash
  refine ⟨hslashed.deliver (.revoke pubkey) trivial trivial hrevoke,
    .of_revoke hslashed.wellFormed hslashed.indexed hrevoke, fun pk hpk => ?_⟩
  have hpk' := hpk.deliver (.slash pubkey infractionHeight power slashFactor) hs.wellFormed
    hs.entries hrecent trivial hslash
  exact hpk'.deliver (.revoke pubkey) hslashed.wellFormed hslashed.entries trivial trivial hrevoke

theorem KeysSound.endBlock {s : Stake.Store} (hs : KeysSound s) (pool : Pool) (intraTxCounter : ℤ)
    (tendermintUpdates : KVStore Address WRSPValidator) :
    KeysSound { s with pool, intraTxCounter, tendermintUpdates } :=
  ⟨{ hs.wellFormed with }, hs.indexed, hs.entries, hs.unbonded⟩

theorem emptyStore_keysSound (params : Params) (pool : Pool) (accounts : Auth.AccountStore) :
    KeysSound (emptyStore params pool accounts) := by
  refine ⟨emptyStore_wellFormed params pool accounts, ?_, ?_, ?_⟩
  · intro a v hv
    simp [Stake.Store.getValidator, emptyStore] at hv
  · intro pk a ha
    simp [emptyStore] at ha
  · intro a v hv
    simp [Stake.Store.getValidator, emptyStore] at hv

section Jail

variable (address : PubKey → Address)

/-! ## Beginning a term -/

/-- The jail term a step begins: the key, and the time until which it is jailed. -/
def jails (st : State) : Op → Option (PubKey × ℤ)
  | .signature pubkey _ signed =>
    if (countSignature address st.ctx.blockHeight st.store pubkey signed).2.IsDown
        st.ctx.blockHeight then
      some (pubkey, int64 (st.ctx.blockTime + downtimeUnbondDuration))
    else none
  | .doubleSign pubkey _ timestamp _ =>
    if maxEvidenceAge < int64 (st.ctx.blockTime - timestamp) then none
    else some (pubkey, int64 (st.ctx.blockTime + doubleSignUnbondDuration))
  | _ => none

/-- Blocks come with `int64` times that do not decrease, and evidence is about a block there was. -/
def Timely (st : State) : Op → Prop
  | .stake (.endBlock blockTime) _ => st.ctx.blockTime ≤ blockTime ∧ blockTime < 2 ^ 63
  | .doubleSign _ infractionHeight _ _ => 0 < infractionHeight
  | _ => True

/-- No validator is created with the key of a stored validator or with a key that is jailed, and the
end of a term can be written down. -/
def KeepsJail (st : State) : Op → Prop
  | .stake (.createValidator msg) _ => PubKeyFree st.store.stake msg.pubKey ∧
      ∀ info ∈ st.store.getValidatorSigningInfo (address msg.pubKey),
        info.jailedUntil ≤ st.ctx.blockTime
  | .signature _ _ _ => st.ctx.blockTime + downtimeUnbondDuration < 2 ^ 63
  | .doubleSign _ _ _ _ => st.ctx.blockTime + doubleSignUnbondDuration < 2 ^ 63
  | _ => True

instance (st : State) (op : Op) : Decidable (Timely st op) :=
  match op with
  | .stake (.endBlock _) _ => inferInstanceAs (Decidable (_ ∧ _))
  | .doubleSign _ _ _ _ => inferInstanceAs (Decidable (_ < _))
  | .unrevoke _ | .signature _ _ _ => inferInstanceAs (Decidable True)
  | .stake (.createValidator _) _ | .stake (.editValidator _) _ | .stake (.delegate _) _
  | .stake (.beginUnbonding _) _ | .stake (.completeUnbonding _) _ | .stake (.beginRedelegate _) _
  | .stake (.completeRedelegate _) _ => inferInstanceAs (Decidable True)

instance (st : State) (op : Op) : Decidable (KeepsJail address st op) :=
  match op with
  | .stake (.createValidator _) _ => inferInstanceAs (Decidable (_ ∧ ∀ info ∈ _, _))
  | .signature _ _ _ | .doubleSign _ _ _ _ => inferInstanceAs (Decidable (_ < _))
  | .unrevoke _ => inferInstanceAs (Decidable True)
  | .stake (.endBlock _) _ | .stake (.editValidator _) _ | .stake (.delegate _) _
  | .stake (.beginUnbonding _) _ | .stake (.completeUnbonding _) _ | .stake (.beginRedelegate _) _
  | .stake (.completeRedelegate _) _ => inferInstanceAs (Decidable True)

/-- The state in the middle of a jail term for the key `pk` that ends at `T`. -/
structure Held (st : State) (pk : PubKey) (T : ℤ) : Prop where
  soon : T ≤ st.ctx.blockTime + downtimeUnbondDuration
  revoked : st.ctx.blockTime < T → KeyRevoked pk st.store.stake
  jailed : st.ctx.blockTime < T → ∃ info,
    st.store.getValidatorSigningInfo (address pk) = some info ∧ T ≤ info.jailedUntil

end Jail

/-! ## One step -/

section Step

variable {address : PubKey → Address} {st st' : State} {op : Op} {pk : PubKey} {T : ℤ}

/-- What holds in every state of a run that keeps to `KeepsJail`. -/
structure Standing (st : State) : Prop where
  keys : KeysSound st.store.stake
  time : -2 ^ 63 ≤ st.ctx.blockTime

theorem recent_of_not_isKeeperCall {ctx : Ctx} {op : Stake.Op} (h : isKeeperCall op = false) :
    op.Recent ctx := by
  cases op <;> trivial

theorem Standing.step (hst : Standing st) (htimely : Timely st op) (hkeeps : KeepsJail address st op)
    (h : Slashing.step address st op = .ok st') : Standing st' := by
  cases step_effect h with
  | endBlock pool => exact ⟨hst.keys.endBlock pool 0 ∅, hst.time.trans htimely.1⟩
  | @stake op hop stake hdeliver =>
    refine ⟨hst.keys.deliver op (recent_of_not_isKeeperCall hop) ?_ hdeliver, hst.time⟩
    cases op with
    | createValidator msg => exact hkeeps.1
    | _ => trivial
  | @unrevoke msg validator info stake _ _ _ hunrevoke =>
    exact ⟨hst.keys.deliver (.unrevoke validator.pubKey) trivial trivial hunrevoke, hst.time⟩
  | @up pubkey power signed s₁ signInfo hcount hstake hup =>
    refine ⟨?_, hst.time⟩
    show KeysSound s₁.stake
    rw [hstake]
    exact hst.keys
  | down _ _ hslash hrevoke => exact ⟨(hst.keys.punish (.inl rfl) hslash hrevoke).1, hst.time⟩
  | tooOld => exact hst
  | doubleSign _ hslash hrevoke =>
    exact ⟨(hst.keys.punish (.inr htimely) hslash hrevoke).1, hst.time⟩

theorem Held.of_kept {store : Store} (hheld : Held address st pk T)
    (hkept : ∀ info, st.store.getValidatorSigningInfo (address pk) = some info →
      st.ctx.blockTime < T → T ≤ info.jailedUntil → KeyRevoked pk st.store.stake →
      KeyRevoked pk store.stake ∧ ∃ info', store.getValidatorSigningInfo (address pk) = some info' ∧
        T ≤ info'.jailedUntil) :
    Held address ⟨st.ctx, store⟩ pk T := by
  have hboth : st.ctx.blockTime < T → KeyRevoked pk store.stake ∧
      ∃ info', store.getValidatorSigningInfo (address pk) = some info' ∧ T ≤ info'.jailedUntil := by
    intro hearly
    obtain ⟨info, hinfo, hle⟩ := hheld.jailed hearly
    exact hkept info hinfo hearly hle (hheld.revoked hearly)
  exact ⟨hheld.soon, fun hearly => (hboth hearly).1, fun hearly => (hboth hearly).2⟩

theorem Standing.jailedUntil (hst : Standing st)
    (hlate : st.ctx.blockTime + downtimeUnbondDuration < 2 ^ 63) :
    int64 (st.ctx.blockTime + downtimeUnbondDuration) =
      st.ctx.blockTime + downtimeUnbondDuration := by
  apply int64_eq_self _ hlate
  have htime := hst.time
  unfold downtimeUnbondDuration
  omega

/-- The term stands where another signing info is written, or the same with a term as long. -/
theorem Store.jailed_set {s : Store} {a b : Address} {jail info : ValidatorSigningInfo}
    (hjail : s.getValidatorSigningInfo a = some jail) (hle : T ≤ jail.jailedUntil)
    (hinfo : b = a → T ≤ info.jailedUntil) :
    ∃ info', (s.setValidatorSigningInfo b info).getValidatorSigningInfo a = some info' ∧
      T ≤ info'.jailedUntil := by
  rw [Store.getValidatorSigningInfo_set]
  split_ifs with haddress
  · exact ⟨info, rfl, hinfo haddress⟩
  · exact ⟨jail, hjail, hle⟩

theorem Held.step (hst : Standing st) (hheld : Held address st pk T) (htimely : Timely st op)
    (hkeeps : KeepsJail address st op) (h : Slashing.step address st op = .ok st') :
    Held address st' pk T := by
  cases step_effect h with
  | @endBlock blockTime hop pool =>
    have htime : st.ctx.blockTime ≤ blockTime := htimely.1
    exact ⟨hheld.soon.trans (by gcongr), fun hearly => hheld.revoked (htime.trans_lt hearly),
      fun hearly => hheld.jailed (htime.trans_lt hearly)⟩
  | @stake op hop stake hdeliver =>
    refine hheld.of_kept fun info hinfo hearly hle hrevoked => ⟨?_, info, hinfo, hle⟩
    refine hrevoked.deliver op hst.keys.wellFormed hst.keys.entries
      (recent_of_not_isKeeperCall hop) ?_ hdeliver
    cases op with
    | createValidator msg =>
      -- the key of a new validator is not in jail
      rintro rfl
      have hfree := hkeeps.2 info hinfo
      omega
    | unrevoke pubkey => cases hop
    | _ => trivial
  | @unrevoke msg validator info stake hvalidator hinfo hover hunrevoke =>
    refine hheld.of_kept fun jail hjail hearly hle hrevoked => ⟨?_, ?_⟩
    · refine hrevoked.deliver (.unrevoke validator.pubKey) hst.keys.wellFormed hst.keys.entries
        trivial ?_ hunrevoke
      rintro rfl
      rw [hinfo] at hjail
      obtain rfl := Option.some.inj hjail
      omega
    · refine Store.jailed_set hjail hle fun haddress => ?_
      rw [haddress, hjail] at hinfo
      obtain rfl := Option.some.inj hinfo
      exact hle
  | @up pubkey power signed s₁ signInfo hcount hstake hup =>
    refine hheld.of_kept fun jail hjail hearly hle hrevoked => ⟨?_, ?_⟩
    · show KeyRevoked pk s₁.stake
      rw [hstake]
      exact hrevoked
    · refine Store.jailed_set ((getValidatorSigningInfo_of_count hcount _).trans hjail) hle fun haddress => ?_
      have hkept := countSignature_jailedUntil st.ctx.blockHeight signed (haddress.symm ▸ hjail)
      rw [hcount] at hkept
      exact hkept ▸ hle
  | @down pubkey power signed s₁ signInfo slashed stake hcount hdown hslash hrevoke =>
    refine hheld.of_kept fun jail hjail hearly hle hrevoked => ⟨?_, ?_⟩
    · exact (hst.keys.punish (.inl rfl) hslash hrevoke).2.2 pk hrevoked
    · exact Store.jailed_set ((getValidatorSigningInfo_of_count hcount _).trans hjail)
        hle fun _ => hheld.soon.trans_eq (hst.jailedUntil hkeeps).symm
  | tooOld => exact hheld
  | @doubleSign pubkey infractionHeight timestamp power slashed stake signInfo _ hslash hrevoke =>
    refine hheld.of_kept fun jail hjail hearly hle hrevoked => ⟨?_, ?_⟩
    · exact (hst.keys.punish (.inr htimely) hslash hrevoke).2.2 pk hrevoked
    · exact Store.jailed_set hjail hle
        fun _ => hheld.soon.trans_eq (hst.jailedUntil hkeeps).symm

/-- A jail term begins. -/
theorem Held.of_jails (hst : Standing st) (htimely : Timely st op)
    (hkeeps : KeepsJail address st op) (hjails : jails address st op = some (pk, T))
    (h : Slashing.step address st op = .ok st') : Held address st' pk T := by
  cases step_effect h with
  | endBlock | stake | unrevoke => cases hjails
  | up hcount _ hup =>
    simp only [jails, hcount, if_neg hup] at hjails
    cases hjails
  | down hcount hdown hslash hrevoke =>
    simp only [jails, hcount, if_pos hdown, hst.jailedUntil hkeeps] at hjails
    obtain ⟨rfl, rfl⟩ := Prod.mk.inj (Option.some.inj hjails)
    refine ⟨le_rfl, fun _ => (hst.keys.punish (.inl rfl) hslash hrevoke).2.1, fun _ => ?_⟩
    rw [Store.getValidatorSigningInfo_set, if_pos rfl]
    exact ⟨_, rfl, (hst.jailedUntil hkeeps).symm.le⟩
  | tooOld hold =>
    simp only [jails, if_pos hold] at hjails
    cases hjails
  | doubleSign hrecent hslash hrevoke =>
    simp only [jails, if_neg hrecent] at hjails
    obtain ⟨rfl, hT⟩ := Prod.mk.inj (Option.some.inj hjails)
    have hT' : T = st.ctx.blockTime + downtimeUnbondDuration := hT.symm.trans (hst.jailedUntil hkeeps)
    refine ⟨hT'.le, fun _ => (hst.keys.punish (.inr htimely) hslash hrevoke).2.1, fun _ => ?_⟩
    rw [Store.getValidatorSigningInfo_set, if_pos rfl]
    exact ⟨_, rfl, hT.ge⟩

end Step

/-! ## Runs -/

/-- The first block of a chain without validators. -/
def initial (ctx : Ctx) (params : Params) (pool : Pool) (accounts : Auth.AccountStore) : State :=
  ⟨ctx, ⟨emptyStore params pool accounts, ∅, ∅⟩⟩

theorem held_of_run {address : PubKey → Address} {ctx : Ctx} {params : Params} {pool : Pool}
    {accounts : Auth.AccountStore} {history : List (State × Op)} {st : State}
    (hrun : Run (step address) (initial ctx params pool accounts) history st)
    (hstart : -2 ^ 63 ≤ ctx.blockTime) (htimely : Run.Meets Timely history)
    (hkeeps : Run.Meets (KeepsJail address) history) :
    Standing st ∧ ∀ entry ∈ history, ∀ pk T, jails address entry.1 entry.2 = some (pk, T) →
      Held address st pk T := by
  -- induction over the steps: the last one begins a term or goes on with the earlier ones
  induction hrun with
  | nil => exact ⟨⟨emptyStore_keysSound _ _ _, hstart⟩, by simp⟩
  | @snoc history st st' op _ hstep ih =>
    rw [Run.meets_append] at htimely hkeeps
    obtain ⟨hst, hheld⟩ := ih htimely.1 hkeeps.1
    refine ⟨hst.step htimely.2 hkeeps.2 hstep, ?_⟩
    intro entry hentry pk T hjails
    rcases List.mem_append.mp hentry with hentry | hentry
    · exact (hheld entry hentry pk T hjails).step hst htimely.2 hkeeps.2 hstep
    · obtain rfl := List.mem_singleton.mp hentry
      exact .of_jails hst htimely.2 hkeeps.2 hjails hstep

/-- If no validator is created with a key that is jailed or taken, then no validator with a jailed
key is bonded before its term is over. -/
theorem jailed_not_bonded {address : PubKey → Address} {ctx : Ctx} {params : Params} {pool : Pool}
    {accounts : Auth.AccountStore} {history : List (State × Op)} {st : State}
    (hrun : Run (step address) (initial ctx params pool accounts) history st)
    (hstart : -2 ^ 63 ≤ ctx.blockTime) (htimely : Run.Meets Timely history)
    (hkeeps : Run.Meets (KeepsJail address) history) :
    ∀ entry ∈ history, ∀ pk T, jails address entry.1 entry.2 = some (pk, T) →
      st.ctx.blockTime < T → ∀ a v, st.store.stake.getValidator a = some v → v.pubKey = pk →
        v.status ≠ .bonded := by
  intro entry hentry pk T hjails hearly a v hv hpk
  obtain ⟨hst, hheld⟩ := held_of_run hrun hstart htimely hkeeps
  have hrevoked := (hheld entry hentry pk T hjails).revoked hearly
  exact hst.keys.unbonded a v hv (hrevoked a v hv hpk)

namespace Example

/-- The chain of the staking examples, with two places. -/
def genesis : State := initial ⟨1, 0⟩ { defaultParams with maxValidators := 2 }
  { initialPool with looseTokens := 5000 } Stake.Example.accounts

/-- The validator of account `[1]` signs a block and turns out to have signed another one too. -/
def doubleSigned : List Op :=
  [.stake (Stake.Example.create 1 100) (by decide), .stake (.endBlock 5) (by decide),
    .signature [101] 100 true, .doubleSign [101] 1 0 100]

/-- Its owner unbonds everything and creates a validator with the same key. -/
def reentered : List Op :=
  doubleSigned ++ [.stake (Stake.Example.unbond 1 1 100) rfl, .stake (Stake.Example.create 1 50) rfl]

end Example

theorem jailed_not_bonded_example :
    ∃ st, Run (step id) Example.genesis
        (Run.historyOf (step id) Example.genesis Example.doubleSigned) st ∧
      (∃ entry ∈ Run.historyOf (step id) Example.genesis Example.doubleSigned,
        jails id entry.1 entry.2 = some ([101], 305)) ∧
      ∀ a v, st.store.stake.getValidator a = some v → v.pubKey = [101] → v.status ≠ .bonded := by
  obtain ⟨st, hrun, htest⟩ := Run.of_leadsTo (step id) Example.genesis Example.doubleSigned
    (fun st => decide (st.ctx.blockTime < 305)) (by decide +kernel)
  obtain ⟨entry, hentry, hjails⟩ : ∃ entry ∈ Run.historyOf (step id) Example.genesis
      Example.doubleSigned, jails id entry.1 entry.2 = some ([101], 305) := by decide +kernel
  exact ⟨st, hrun, ⟨entry, hentry, hjails⟩, jailed_not_bonded hrun (by decide) (by decide +kernel)
    (by decide +kernel) entry hentry [101] 305 hjails (of_decide_eq_true htest)⟩

/-- The owner of a jailed validator gets its key bonded again at once. -/
theorem jailed_bonded_again :
    ∃ st, Run (step id) Example.genesis
        (Run.historyOf (step id) Example.genesis Example.reentered) st ∧
      Run.Meets Timely (Run.historyOf (step id) Example.genesis Example.reentered) ∧
      (∃ entry ∈ Run.historyOf (step id) Example.genesis Example.reentered,
        jails id entry.1 entry.2 = some ([101], 305)) ∧
      st.ctx.blockTime < 305 ∧
      ∃ v, st.store.stake.getValidator [1] = some v ∧ v.pubKey = [101] ∧ v.status = .bonded := by
  obtain ⟨st, hrun, htest⟩ := Run.of_leadsTo (step id) Example.genesis Example.reentered
    (fun st => decide (st.ctx.blockTime < 305 ∧ ∃ v ∈ st.store.stake.getValidator [1],
      v.pubKey = [101] ∧ v.status = .bonded)) (by decide +kernel)
  obtain ⟨hearly, v, hv, hbonded⟩ := of_decide_eq_true htest
  exact ⟨st, hrun, by decide +kernel, by decide +kernel, hearly, v, hv, hbonded⟩

end Tepleton.Slashing
