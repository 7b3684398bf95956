import Tepleton.Stake.Inversion

/-!
# Signatures and infractions: `x/slashing`

The slashing module keeps, for every key it has seen sign or miss a block, a signing info and a bit
per block of a sliding window.  Both are stored by the address of the key, which `address` computes;
the validators themselves are in the staking store, by owner.

A validator is jailed in two steps that nothing ties together: `Revoke` marks its record in the
staking store, and `JailedUntil` in the signing info says from when `handleMsgUnrevoke` may take the
mark away.
-/

namespace Tepleton.Slashing

open Lib

/-! ## Parameters: `params.go` -/

def maxEvidenceAge : ℤ := 60 * 2

def signedBlocksWindow : ℤ := 40000

def minSignedPerWindow : ℤ := signedBlocksWindow / 2

def downtimeUnbondDuration : ℤ := 60 * 5

def doubleSignUnbondDuration : ℤ := 60 * 5

def slashFractionDoubleSign : ℚ := 1 / 20

def slashFractionDowntime : ℚ := 1 / 100

/-! ## Errors: `errors.go` -/

def errNoValidatorForAddress : SdkError :=
  ⟨101, "that address is not associated with any known validator"⟩

def errValidatorJailed : SdkError := ⟨102, "validator jailed, cannot yet be unrevoked"⟩

def errValidatorNotRevoked : SdkError := ⟨103, "validator not revoked, cannot be unrevoked"⟩

/-! ## The store: `signing_info.go` -/

structure ValidatorSigningInfo where
  startHeight : ℤ
  indexOffset : ℤ
  jailedUntil : ℤ
  signedBlocksCounter : ℤ
  deriving DecidableEq, Repr

instance transCmp_bit : Std.TransCmp (LinearOrder.toOrd (α := Address ×ₗ ℤ)).compare := inferInstance

/-- The staking store and the slashing store. -/
structure Store where
  stake : Stake.Store
  signingInfos : KVStore Address ValidatorSigningInfo
  signingBits : KVStore (Address ×ₗ ℤ) Bool

namespace Store

def getValidatorSigningInfo (s : Store) (address : Address) : Option ValidatorSigningInfo :=
  s.signingInfos[address]?

def setValidatorSigningInfo (s : Store) (address : Address) (info : ValidatorSigningInfo) : Store :=
  { s with signingInfos := s.signingInfos.insert address info }

/-- `Keeper.getValidatorSigningBitArray`: an empty key counts as unsigned. -/
def getValidatorSigningBitArray (s : Store) (address : Address) (index : ℤ) : Bool :=
  s.signingBits[toLex (address, index)]?.getD false

def setValidatorSigningBitArray (s : Store) (address : Address) (index : ℤ) (signed : Bool) : Store :=
  { s with signingBits := s.signingBits.insert (toLex (address, index)) signed }

@[simp] theorem getValidatorSigningInfo_set (s : Store) (a b : Address)
    (info : ValidatorSigningInfo) :
    (s.setValidatorSigningInfo a info).getValidatorSigningInfo b =
      if a = b then some info else s.getValidatorSigningInfo b :=
  KVStore.getElem?_insert _ _ _ _

end Store

/-! ## Infractions: `keeper.go` -/

section Keeper

-- `crypto.PubKey.Address`
variable (address : PubKey → Address)

def handleDoubleSign (ctx : Stake.Ctx) (s : Store) (pubkey : PubKey)
    (infractionHeight timestamp power : ℤ) : Outcome Store :=
  let age := int64 (ctx.blockTime - timestamp)
  if maxEvidenceAge < age then .ok s
  else do
    let stake ← s.stake.slash ctx pubkey infractionHeight power slashFractionDoubleSign
    let stake ← stake.revoke ctx pubkey
    match s.getValidatorSigningInfo (address pubkey) with
    | none => .error (.panic (.signingInfoNotFound (address pubkey)))
    | some signInfo =>
      let jailedUntil := int64 (ctx.blockTime + doubleSignUnbondDuration)
      return { s with stake }.setValidatorSigningInfo (address pubkey) { signInfo with jailedUntil }

/-- `handleValidatorSignature` up to its test for downtime, for a window of `W` blocks: the bit of the
current block is written, and the info has its offset and its counter moved. -/
def countSignatureIn (W height : ℤ) (s : Store) (pubkey : PubKey) (signed : Bool) :
    Store × ValidatorSigningInfo :=
  let signInfo := (s.getValidatorSigningInfo (address pubkey)).getD ⟨height, 0, 0, 0⟩
  let index := signInfo.indexOffset.tmod W
  let signInfo := { signInfo with indexOffset := int64 (signInfo.indexOffset + 1) }
  let previous := s.getValidatorSigningBitArray (address pubkey) index
  if previous = signed then (s, signInfo)
  else if previous then
    (s.setValidatorSigningBitArray (address pubkey) index false,
      { signInfo with signedBlocksCounter := int64 (signInfo.signedBlocksCounter - 1) })
  else
    (s.setValidatorSigningBitArray (address pubkey) index true,
      { signInfo with signedBlocksCounter := int64 (signInfo.signedBlocksCounter + 1) })

/-- Counting with the window of `params.go`. -/
def countSignature (height : ℤ) (s : Store) (pubkey : PubKey) (signed : Bool) :
    Store × ValidatorSigningInfo :=
  countSignatureIn address signedBlocksWindow height s pubkey signed

/-- The test for downtime: the window is over and too few of its blocks are signed. -/
def ValidatorSigningInfo.IsDownIn (W minSigned height : ℤ) (signInfo : ValidatorSigningInfo) : Prop :=
  int64 (signInfo.startHeight + W) < height ∧ signInfo.signedBlocksCounter < minSigned

instance (W minSigned height : ℤ) (signInfo : ValidatorSigningInfo) :
    Decidable (signInfo.IsDownIn W minSigned height) :=
  inferInstanceAs (Decidable (_ ∧ _))

/-- The test for downtime with the parameters of `params.go`. -/
def ValidatorSigningInfo.IsDown (height : ℤ) (signInfo : ValidatorSigningInfo) : Prop :=
  signInfo.IsDownIn signedBlocksWindow minSignedPerWindow height

instance (height : ℤ) (signInfo : ValidatorSigningInfo) : Decidable (signInfo.IsDown height) :=
  inferInstanceAs (Decidable (signInfo.IsDownIn _ _ _))

/-- `handleValidatorSignature`, whatever `SignedBlocksWindow` and `MinSignedPerWindow` are set to. -/
def handleValidatorSignatureIn (W minSigned : ℤ) (ctx : Stake.Ctx) (s : Store) (pubkey : PubKey)
    (power : ℤ) (signed : Bool) : Outcome Store :=
  let (s, signInfo) := countSignatureIn address W ctx.blockHeight s pubkey signed
  if signInfo.IsDownIn W minSigned ctx.blockHeight then do
    let stake ← s.stake.slash ctx pubkey ctx.blockHeight power slashFractionDowntime
    let stake ← stake.revoke ctx pubkey
    let jailedUntil := int64 (ctx.blockTime + downtimeUnbondDuration)
    return { s with stake }.setValidatorSigningInfo (address pubkey) { signInfo with jailedUntil }
  else return s.setValidatorSigningInfo (address pubkey) signInfo

def handleValidatorSignature (ctx : Stake.Ctx) (s : Store) (pubkey : PubKey) (power : ℤ)
    (signed : Bool) : Outcome Store :=
  handleValidatorSignatureIn address signedBlocksWindow minSignedPerWindow ctx s pubkey power signed

/-! ## Leaving jail: `handler.go` -/

structure MsgUnrevoke where
  validatorAddr : Address

/-- `handleMsgUnrevoke`, when a transaction is delivered. -/
def handleMsgUnrevoke (ctx : Stake.Ctx) (s : Store) (msg : MsgUnrevoke) : Outcome Store :=
  match s.stake.getValidator msg.validatorAddr with
  | none => .error (.error errNoValidatorForAddress)
  | some validator =>
    if validator.revoked = false then .error (.error errValidatorNotRevoked)
    else match s.getValidatorSigningInfo (address validator.pubKey) with
      | none => .error (.error errNoValidatorForAddress)
      | some info =>
        if ctx.blockTime < info.jailedUntil then .error (.error errValidatorJailed)
        else do
          let s := s.setValidatorSigningInfo (address validator.pubKey)
            { info with startHeight := ctx.blockHeight }
          let stake ← s.stake.unrevoke ctx validator.pubKey
          return { s with stake }

/-! ## Steps -/

/-- `Revoke`, `Unrevoke` and `Slash` are not messages: this module calls them. -/
def isKeeperCall : Stake.Op → Bool
  | .revoke _ | .unrevoke _ | .slash _ _ _ _ => true
  | _ => false

/-- What can happen to the two stores: a stake message or the end of a block, an unrevoke message,
or one of the two calls `BeginBlocker` makes, for a validator that should have signed the last block
and for a piece of evidence. -/
inductive Op
  | stake (op : Stake.Op) (hop : isKeeperCall op = false)
  | unrevoke (msg : MsgUnrevoke)
  | signature (pubkey : PubKey) (power : ℤ) (signed : Bool)
  | doubleSign (pubkey : PubKey) (infractionHeight timestamp power : ℤ)

/-- The header of the block being executed and the stores. -/
structure State where
  ctx : Stake.Ctx
  store : Store

/-- One step of the chain. -/
def step (st : State) : Op → Outcome State
  | .stake op _ => do
      let ⟨ctx, stake⟩ ← Stake.step ⟨st.ctx, st.store.stake⟩ op
      return ⟨ctx, { st.store with stake }⟩
  | .unrevoke msg => do
      let store ← handleMsgUnrevoke address st.ctx st.store msg
      return ⟨st.ctx, store⟩
  | .signature pubkey power signed => do
      let store ← handleValidatorSignature address st.ctx st.store pubkey power signed
      return ⟨st.ctx, store⟩
  | .doubleSign pubkey infractionHeight timestamp power => do
      let store ← handleDoubleSign address st.ctx st.store pubkey infractionHeight timestamp power
      return ⟨st.ctx, store⟩

end Keeper

/-! ## What the calls have done -/

section Calls

variable {address : PubKey → Address} {ctx : Stake.Ctx} {s s' : Store} {pubkey : PubKey} {power : ℤ}

theorem countSignatureIn_stake (address : PubKey → Address) (W height : ℤ) (s : Store)
    (pubkey : PubKey) (signed : Bool) :
    (countSignatureIn address W height s pubkey signed).1.stake = s.stake := by
  simp only [countSignatureIn]
  split_ifs <;> rfl

theorem countSignature_stake (address : PubKey → Address) (height : ℤ) (s : Store) (pubkey : PubKey)
    (signed : Bool) :
    (countSignature address height s pubkey signed).1.stake = s.stake :=
  countSignatureIn_stake address signedBlocksWindow height s pubkey signed

theorem countSignatureIn_signingInfos (address : PubKey → Address) (W height : ℤ) (s : Store)
    (pubkey : PubKey) (signed : Bool) :
    (countSignatureIn address W height s pubkey signed).1.signingInfos = s.signingInfos := by
  simp only [countSignatureIn]
  split_ifs <;> rfl

theorem countSignature_signingInfos (address : PubKey → Address) (height : ℤ) (s : Store)
    (pubkey : PubKey) (signed : Bool) :
    (countSignature address height s pubkey signed).1.signingInfos = s.signingInfos :=
  countSignatureIn_signingInfos address signedBlocksWindow height s pubkey signed

theorem getValidatorSigningInfo_of_count {s₁ : Store} {height : ℤ} {signed : Bool}
    {signInfo : ValidatorSigningInfo}
    (h : countSignature address height s pubkey signed = (s₁, signInfo)) (a : Address) :
    s₁.getValidatorSigningInfo a = s.getValidatorSigningInfo a := by
  have hinfos := countSignature_signingInfos address height s pubkey signed
  rw [h] at hinfos
  rw [Store.getValidatorSigningInfo, hinfos]
  rfl

theorem countSignature_jailedUntil (height : ℤ) (signed : Bool) {info : ValidatorSigningInfo}
    (h : s.getValidatorSigningInfo (address pubkey) = some info) :
    (countSignature address height s pubkey signed).2.jailedUntil = info.jailedUntil := by
  simp only [countSignature, countSignatureIn, h]
  split_ifs <;> rfl

/-- What a step has done, with the calls it made. -/
inductive Effect (address : PubKey → Address) (st : State) : Op → State → Prop
  | endBlock {blockTime : ℤ} {hop : isKeeperCall (.endBlock blockTime) = false} (pool : Stake.Pool) :
      Effect address st (.stake (.endBlock blockTime) hop)
        ⟨⟨st.ctx.blockHeight + 1, blockTime⟩, { st.store with stake := { st.store.stake with
          pool, intraTxCounter := 0, tendermintUpdates := ∅ } }⟩
  | stake {op : Stake.Op} {hop : isKeeperCall op = false} {stake : Stake.Store}
      (hdeliver : Stake.deliver st.ctx st.store.stake op = .ok stake) :
      Effect address st (.stake op hop) ⟨st.ctx, { st.store with stake }⟩
  | unrevoke {msg : MsgUnrevoke} {validator : Stake.Validator} {info : ValidatorSigningInfo}
      {stake : Stake.Store} (hvalidator : st.store.stake.getValidator msg.validatorAddr = some validator)
      (hinfo : st.store.getValidatorSigningInfo (address validator.pubKey) = some info)
      (hover : info.jailedUntil ≤ st.ctx.blockTime)
      (hunrevoke : st.store.stake.unrevoke st.ctx validator.pubKey = .ok stake) :
      Effect address st (.unrevoke msg) ⟨st.ctx, { st.store.setValidatorSigningInfo
        (address validator.pubKey) { info with startHeight := st.ctx.blockHeight } with stake }⟩
  | up {pubkey : PubKey} {power : ℤ} {signed : Bool} {s₁ : Store} {signInfo : ValidatorSigningInfo}
      (hcount : countSignature address st.ctx.blockHeight st.store pubkey signed = (s₁, signInfo))
      (hstake : s₁.stake = st.store.stake) (hup : ¬ signInfo.IsDown st.ctx.blockHeight) :
      Effect address st (.signature pubkey power signed)
        ⟨st.ctx, s₁.setValidatorSigningInfo (address pubkey) signInfo⟩
  | down {pubkey : PubKey} {power : ℤ} {signed : Bool} {s₁ : Store} {signInfo : ValidatorSigningInfo}
      {slashed stake : Stake.Store}
      (hcount : countSignature address st.ctx.blockHeight st.store pubkey signed = (s₁, signInfo))
      (hdown : signInfo.IsDown st.ctx.blockHeight)
      (hslash : st.store.stake.slash st.ctx pubkey st.ctx.blockHeight power slashFractionDowntime =
        .ok slashed)
      (hrevoke : slashed.revoke st.ctx pubkey = .ok stake) :
      Effect address st (.signature pubkey power signed)
        ⟨st.ctx, { s₁ with stake }.setValidatorSigningInfo (address pubkey)
          { signInfo with jailedUntil := int64 (st.ctx.blockTime + downtimeUnbondDuration) }⟩
  | tooOld {pubkey : PubKey} {infractionHeight timestamp power : ℤ}
      (hold : maxEvidenceAge < int64 (st.ctx.blockTime - timestamp)) :
      Effect address st (.doubleSign pubkey infractionHeight timestamp power) st
  | doubleSign {pubkey : PubKey} {infractionHeight timestamp power : ℤ} {slashed stake : Stake.Store}
      {signInfo : ValidatorSigningInfo}
      (hrecent : ¬ maxEvidenceAge < int64 (st.ctx.blockTime - timestamp))
      (hslash : st.store.stake.slash st.ctx pubkey infractionHeight power slashFractionDoubleSign =
        .ok slashed)
      (hrevoke : slashed.revoke st.ctx pubkey = .ok stake)
      (hinfo : st.store.getValidatorSigningInfo (address pubkey) = some signInfo) :
      Effect address st (.doubleSign pubkey infractionHeight timestamp power)
        ⟨st.ctx, { st.store with stake }.setValidatorSigningInfo (address pubkey)
          { signInfo with jailedUntil := int64 (st.ctx.blockTime + doubleSignUnbondDuration) }⟩

theorem handleValidatorSignatureIn_eq_ok {W minSigned : ℤ} {signed : Bool}
    (h : handleValidatorSignatureIn address W minSigned ctx s pubkey power signed = .ok s') :
    ∃ s₁ signInfo, countSignatureIn address W ctx.blockHeight s pubkey signed = (s₁, signInfo) ∧
      ((¬ signInfo.IsDownIn W minSigned ctx.blockHeight ∧
          s' = s₁.setValidatorSigningInfo (address pubkey) signInfo) ∨
        (signInfo.IsDownIn W minSigned ctx.blockHeight ∧ ∃ slashed stake,
          s.stake.slash ctx pubkey ctx.blockHeight power slashFractionDowntime = .ok slashed ∧
          slashed.revoke ctx pubkey = .ok stake ∧
          s' = { s₁ with stake }.setValidatorSigningInfo (address pubkey)
            { signInfo with jailedUntil := int64 (ctx.blockTime + downtimeUnbondDuration) })) := by
  unfold handleValidatorSignatureIn at h
  rcases hcount : countSignatureIn address W ctx.blockHeight s pubkey signed with ⟨s₁, signInfo⟩
  have hstake : s₁.stake = s.stake := by
    rw [← countSignatureIn_stake address W ctx.blockHeight s pubkey signed, hcount]
  refine ⟨s₁, signInfo, rfl, ?_⟩
  simp only [hcount] at h
  by_cases hdown : signInfo.IsDownIn W minSigned ctx.blockHeight
  · rw [if_pos hdown] at h
    simp only [hstake, bind_eq_ok, pure_eq_ok] at h
    obtain ⟨slashed, hslash, stake, hrevoke, h⟩ := h
    exact .inr ⟨hdown, slashed, stake, hslash, hrevoke, h.symm⟩
  · rw [if_neg hdown, pure_eq_ok] at h
    exact .inl ⟨hdown, h.symm⟩

theorem step_effect {address : PubKey → Address} {st st' : State} {op : Op}
    (h : step address st op = .ok st') : Effect address st op st' := by
  cases op with
  | stake op hop =>
    simp only [step, bind_eq_ok, pure_eq_ok] at h
    obtain ⟨⟨ctx, stake⟩, hstep, rfl⟩ := h
    rcases Stake.step_cases hstep with ⟨blockTime, rfl⟩ | ⟨hctx, hdeliver⟩
    · obtain ⟨-, looseTokens, inflation, hst⟩ := Stake.step_endBlock_eq_ok hstep
      cases hst
      exact .endBlock _
    · obtain rfl : ctx = st.ctx := hctx
      exact .stake hdeliver
  | unrevoke msg =>
    simp only [step, handleMsgUnrevoke, bind_eq_ok, pure_eq_ok] at h
    obtain ⟨s', h, rfl⟩ := h
    cases hvalidator : st.store.stake.getValidator msg.validatorAddr with
    | none => simp [hvalidator] at h
    | some validator =>
      simp only [hvalidator] at h
      split_ifs at h
      cases hinfo : st.store.getValidatorSigningInfo (address validator.pubKey) with
      | none => simp [hinfo] at h
      | some info =>
        simp only [hinfo] at h
        split_ifs at h with hjailed
        simp only [bind_eq_ok, pure_eq_ok] at h
        obtain ⟨stake, hunrevoke, rfl⟩ := h
        exact .unrevoke hvalidator hinfo (not_lt.mp hjailed) hunrevoke
  | signature pubkey power signed =>
    simp only [step, bind_eq_ok, pure_eq_ok] at h
    obtain ⟨s', hsignature, rfl⟩ := h
    obtain ⟨s₁, signInfo, hcount, ⟨hup, rfl⟩ | ⟨hdown, slashed, stake, hslash, hrevoke, rfl⟩⟩ :=
      handleValidatorSignatureIn_eq_ok hsignature
    · refine .up hcount ?_ hup
      rw [← countSignature_stake address st.ctx.blockHeight st.store pubkey signed, countSignature,
        hcount]
    · exact .down hcount hdown hslash hrevoke
  | doubleSign pubkey infractionHeight timestamp power =>
    simp only [step, handleDoubleSign, bind_eq_ok, pure_eq_ok] at h
    obtain ⟨s', h, rfl⟩ := h
    split_ifs at h with hold
    · cases h
      exact .tooOld hold
    · simp only [bind_eq_ok] at h
      obtain ⟨slashed, hslash, stake, hrevoke, h⟩ := h
      cases hinfo : st.store.getValidatorSigningInfo (address pubkey) with
      | none => simp [hinfo] at h
      | some signInfo =>
        simp only [hinfo, pure_eq_ok] at h
        subst h
        exact .doubleSign hold hslash hrevoke hinfo

end Calls

end Tepleton.Slashing
