import Tepleton.Stake.Effects.Frame

/-!
# Unbonding delegations and redelegations over a run

Records are stored under their own addresses and without a creation height.  Slashes may lower the
balance of a record and leave the rest of it alone.
-/

namespace Tepleton.Stake

open Lib

/-! ## What slashes leave of a record -/

/-- `ubd'` is what slashes have left of `ubd`. -/
structure UnbondingDelegation.Wears (ubd ubd' : UnbondingDelegation) : Prop where
  delegatorAddr : ubd'.delegatorAddr = ubd.delegatorAddr
  validatorAddr : ubd'.validatorAddr = ubd.validatorAddr
  creationHeight : ubd'.creationHeight = ubd.creationHeight
  minTime : ubd'.minTime = ubd.minTime
  initialBalance : ubd'.initialBalance = ubd.initialBalance
  denom : ubd'.balance.denom = ubd.balance.denom
  amount : 0 ≤ ubd.initialBalance.amount → 0 ≤ ubd.balance.amount →
    0 ≤ ubd'.balance.amount ∧ ubd'.balance.amount ≤ ubd.balance.amount

namespace UnbondingDelegation.Wears

variable {ubd ubd' ubd'' : UnbondingDelegation}

theorem refl (ubd : UnbondingDelegation) : ubd.Wears ubd :=
  ⟨rfl, rfl, rfl, rfl, rfl, rfl, fun _ hbalance => ⟨hbalance, le_refl _⟩⟩

theorem trans (h : ubd.Wears ubd') (h' : ubd'.Wears ubd'') : ubd.Wears ubd'' where
  delegatorAddr := h'.delegatorAddr.trans h.delegatorAddr
  validatorAddr := h'.validatorAddr.trans h.validatorAddr
  creationHeight := h'.creationHeight.trans h.creationHeight
  minTime := h'.minTime.trans h.minTime
  initialBalance := h'.initialBalance.trans h.initialBalance
  denom := h'.denom.trans h.denom
  amount hinitial hbalance := by
    obtain ⟨hnonneg, hle⟩ := h.amount hinitial hbalance
    rw [← h.initialBalance] at hinitial
    obtain ⟨hnonneg', hle'⟩ := h'.amount hinitial hnonneg
    exact ⟨hnonneg', hle'.trans hle⟩

theorem slashed (ubd : UnbondingDelegation) {slashFactor : ℚ} (hfactor : 0 ≤ slashFactor) :
    ubd.Wears (ubd.slashed slashFactor) := by
  refine ⟨rfl, rfl, rfl, rfl, rfl, rfl, fun hinitial hbalance => ?_⟩
  have hasked := asked_nonneg hinitial hfactor
  simp only [UnbondingDelegation.slashed]
  omega

end UnbondingDelegation.Wears

/-- `red'` is what slashes have left of `red`. -/
def Redelegation.Wears (red red' : Redelegation) : Prop :=
  { red with balance := red'.balance } = red'

namespace Redelegation.Wears

variable {red red' red'' : Redelegation}

theorem refl (red : Redelegation) : red.Wears red := rfl

theorem trans (h : red.Wears red') (h' : red'.Wears red'') : red.Wears red'' := by
  rw [Wears, ← h', ← h]

end Redelegation.Wears

namespace Store

/-- Records are stored under their own addresses and have no creation height. -/
structure Filed (s : Store) : Prop where
  ubds : ∀ key ubd, s.unbondingDelegations[key]? = some ubd →
    getUBDKey ubd.delegatorAddr ubd.validatorAddr = key ∧ ubd.creationHeight = 0
  reds : ∀ key red, s.redelegations[key]? = some red →
    getREDKey red.delegatorAddr red.validatorSrcAddr red.validatorDstAddr = key ∧
      red.creationHeight = 0

/-- Every record of `s'` is what slashes have left of the one that `s` has under the same key. -/
structure Weathers (s s' : Store) : Prop where
  ubds : s.unbondingDelegations.Derives UnbondingDelegation.Wears s'.unbondingDelegations
  reds : s.redelegations.Derives Redelegation.Wears s'.redelegations

variable {s s' s'' : Store}

theorem Filed.undated (hs : s.Filed) : s.Undated :=
  ⟨fun key ubd hubd => (hs.ubds key ubd hubd).2, fun key red hred => (hs.reds key red hred).2⟩

theorem SameRecords.filed (h : s.SameRecords s') (hs : s.Filed) : s'.Filed := by
  refine ⟨?_, ?_⟩
  · rw [h.1]
    exact hs.ubds
  · rw [h.2]
    exact hs.reds

theorem SameRecords.weathers (h : s.SameRecords s') : s.Weathers s' := by
  refine ⟨?_, ?_⟩
  · rw [h.1]
    exact .refl .refl _
  · rw [h.2]
    exact .refl .refl _

theorem Weathers.trans (h : s.Weathers s') (h' : s'.Weathers s'') : s.Weathers s'' :=
  ⟨h.ubds.trans .trans h'.ubds, h.reds.trans .trans h'.reds⟩

theorem Weathers.filed (h : s.Weathers s') (hs : s.Filed) : s'.Filed := by
  refine ⟨h.ubds.forall ?_ hs.ubds, h.reds.forall ?_ hs.reds⟩
  · intro key ubd ubd' hwears hubd
    rwa [hwears.delegatorAddr, hwears.validatorAddr, hwears.creationHeight]
  · intro key red red' hwears hred
    rw [← hwears]
    exact hred

end Store

/-! ## Slashing -/

section Slash

variable {ctx : Ctx} {s s' : Store} {infractionHeight : ℤ} {slashFactor : ℚ}

theorem slashRecords_weathers {owner : Address} {slashAmount remaining : ℤ} (hs : s.Filed)
    (hfactor : 0 ≤ slashFactor)
    (h : s.slashRecords ctx owner infractionHeight slashFactor slashAmount = .ok (s', remaining)) :
    s.Weathers s' := by
  have hrefl : s.SameRecords s := ⟨rfl, rfl⟩
  refine slashRecords_invariant s.Weathers s.Weathers hrefl.weathers id ?_ ?_ h
  · intro t t' amount ubd key hget ht hslash
    obtain ⟨-, -, rfl⟩ | ⟨-, -, ⟨-, rfl⟩ | ⟨-, -, rfl⟩⟩ := slashUnbondingDelegation_eq_ok hslash
    · exact ht
    · exact ht
    · rw [← (hs.ubds key ubd hget).1] at hget
      exact ⟨ht.ubds.insert hget (.slashed ubd hfactor), ht.reds⟩
  · intro t₀ t t' amount red key ht₀ hget ht hslash
    obtain ⟨s₁, rfl | ⟨balance, rfl⟩, hburned⟩ := slashRedelegation_eq_ok hslash
    · exact ht.trans hburned.records.weathers
    · obtain ⟨red₀, hget₀, hwears⟩ := ht₀.reds key red hget
      rw [← ((ht₀.filed hs).reds key red hget).1] at hget₀
      have hlast : red.Wears { red with balance } := rfl
      have hset : s.Weathers (t.setRedelegation { red with balance }) :=
        ⟨ht.ubds, ht.reds.insert hget₀ (hwears.trans hlast)⟩
      exact hset.trans hburned.records.weathers

theorem slash_weathers {pubkey : PubKey} {power : ℤ} (hs : s.Filed)
    (h : s.slash ctx pubkey infractionHeight power slashFactor = .ok s') : s.Weathers s' := by
  have hfactor : 0 ≤ slashFactor := by
    by_contra hneg
    rw [Store.slash, Store.prepareSlash, if_pos (not_le.mp hneg)] at h
    cases h
  obtain ⟨v, s₁, remaining, -, hrecords, hinner⟩ := slash_eq_ok h
  exact (slashRecords_weathers hs hfactor hrecords).trans hinner.records.weathers

end Slash

/-! ## Runs -/

/-- Records are stored as they should be, and the parameters are `params`. -/
structure Tended (params : Params) (st : State) : Prop where
  filed : st.store.Filed
  params : st.store.params = params

section Runs

variable {params : Params} {start st st' : State} {op : Op}

theorem Tended.of_empty (st : State) (hubds : st.store.unbondingDelegations = ∅)
    (hreds : st.store.redelegations = ∅) : Tended st.store.params st := by
  refine ⟨⟨?_, ?_⟩, rfl⟩
  all_goals
    intro key record hrecord
    simp [hubds, hreds] at hrecord

theorem Tended.step (hst : Tended params st) (h : Stake.step st op = .ok st') :
    Tended params st' := by
  obtain ⟨ctx', s'⟩ := st'
  have heffect : Effect st.ctx st.store op s' := step_effect h
  refine ⟨?_, heffect.params.trans hst.params⟩
  cases heffect with
  | inner _ hinner => exact hinner.records.filed hst.filed
  | pays _ _ hinner => exact hinner.records.filed ⟨hst.filed.ubds, hst.filed.reds⟩
  | slash hslash => exact (slash_weathers hst.filed hslash).filed hst.filed
  | beginUnbonding _ hinner =>
    have hfiled := hinner.records.filed hst.filed
    exact ⟨KVStore.forall_insert hfiled.ubds ⟨rfl, rfl⟩, hfiled.reds⟩
  | completeUnbonding _ _ _ => exact ⟨KVStore.forall_erase hst.filed.ubds, hst.filed.reds⟩
  | beginRedelegate _ hinner _ hundated _ =>
    have hfiled := hinner.records.filed ⟨hst.filed.ubds, hst.filed.reds⟩
    exact ⟨hfiled.ubds, KVStore.forall_insert hfiled.reds ⟨rfl, hundated⟩⟩
  | completeRedelegate _ _ => exact ⟨hst.filed.ubds, KVStore.forall_erase hst.filed.reds⟩

theorem Tended.run {history : List (State × Op)} (hstart : Tended params start)
    (hrun : Run Stake.step start history st) : Tended params st := by
  induction hrun with
  | nil => exact hstart
  | snoc _ htaken ih => exact ih.step htaken

end Runs

end Tepleton.Stake
