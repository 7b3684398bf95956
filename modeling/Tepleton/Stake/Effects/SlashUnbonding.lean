import Tepleton.Stake.Invariants.Unbonding

/-!
# What slashing an unbonding delegation burns

`slashUnbondingDelegation` computes an amount from the initial balance of the record and caps it by
the balance that is left.  The record loses the capped amount, and the amount before the cap is
burned, so pool and record part exactly at a record that an earlier slash has left too little.

The loop of `Slash` reads all records first and slashes them one after the other.  No two of them
share a slot, so each is still as it was read when its turn comes.
-/

namespace Tepleton.Stake

open Lib

/-! ## One record -/

section OneRecord

variable {ctx : Ctx} {s s' : Store} {ubd : UnbondingDelegation} {infractionHeight amount : ℤ}
  {slashFactor : ℚ}

theorem slashUnbondingDelegation_other
    (h : s.slashUnbondingDelegation ctx ubd infractionHeight slashFactor = .ok (s', amount))
    {key : Address ×ₗ Address} (hkey : getUBDKey ubd.delegatorAddr ubd.validatorAddr ≠ key) :
    s'.unbondingDelegations[key]? = s.unbondingDelegations[key]? := by
  obtain ⟨-, -, rfl⟩ | ⟨-, -, ⟨-, rfl⟩ | ⟨-, -, rfl⟩⟩ := slashUnbondingDelegation_eq_ok h
  · rfl
  · rfl
  · exact KVStore.getElem?_insert_of_ne _ _ hkey

/-- The records are stored under their own keys and listed by validator under the same addresses, and
none has a balance that is negative or above its initial one.  Loose tokens are an `int64`. -/
structure Store.UnbondingsSound (s : Store) : Prop where
  keyed : ∀ key u, s.unbondingDelegations[key]? = some u →
    getUBDKey u.delegatorAddr u.validatorAddr = key
  balance : ∀ (key : Address ×ₗ Address) (u : UnbondingDelegation),
    s.unbondingDelegations[key]? = some u →
      0 ≤ u.balance.amount ∧ u.balance.amount ≤ u.initialBalance.amount
  listed : ∀ (key target : Address ×ₗ Address), s.unbondingDelegationsByVal[key]? = some target →
    target = getUBDKey (ofLex key).2 (ofLex key).1
  loose : -2 ^ 63 ≤ s.pool.looseTokens ∧ s.pool.looseTokens < 2 ^ 63

instance (s : Store) : Decidable s.UnbondingsSound :=
  decidable_of_iff ((∀ entry ∈ s.unbondingDelegations.toList,
      getUBDKey entry.2.delegatorAddr entry.2.validatorAddr = entry.1 ∧
        0 ≤ entry.2.balance.amount ∧
        entry.2.balance.amount ≤ entry.2.initialBalance.amount) ∧
      (∀ entry ∈ s.unbondingDelegationsByVal.toList,
        entry.2 = getUBDKey (ofLex entry.1).2 (ofLex entry.1).1) ∧
      -2 ^ 63 ≤ s.pool.looseTokens ∧ s.pool.looseTokens < 2 ^ 63) (by
    constructor
    · rintro ⟨hrecords, hlisted, hloose⟩
      exact ⟨fun key u hu => (hrecords (key, u) (KVStore.mem_toList.mpr hu)).1,
        fun key u hu => (hrecords (key, u) (KVStore.mem_toList.mpr hu)).2,
        fun key target h => hlisted (key, target) (KVStore.mem_toList.mpr h), hloose⟩
    · intro hs
      refine ⟨fun entry hentry => ?_, fun entry hentry => ?_, hs.loose⟩
      · have hget := KVStore.mem_toList.mp hentry
        exact ⟨hs.keyed _ _ hget, hs.balance _ _ hget⟩
      · exact hs.listed _ _ (KVStore.mem_toList.mp hentry))

/-- The record is stored. -/
def Store.Holds (s : Store) (ubd : UnbondingDelegation) : Prop :=
  s.getUnbondingDelegation ubd.delegatorAddr ubd.validatorAddr = some ubd

instance (s : Store) (ubd : UnbondingDelegation) : Decidable (s.Holds ubd) :=
  inferInstanceAs (Decidable (_ = _))

/-- The record is not slashed, or it is empty, or it has what the slash asks for and the loose
tokens do not wrap around. -/
def Store.Covers (ctx : Ctx) (s : Store) (ubd : UnbondingDelegation) (infractionHeight : ℤ)
    (slashFactor : ℚ) : Prop :=
  ¬ ubd.Slashable ctx infractionHeight ∨ ubd.balance.amount = 0 ∨
    ubd.asked slashFactor ≤ ubd.balance.amount ∧
      -2 ^ 63 ≤ s.pool.looseTokens - ubd.asked slashFactor

instance (ctx : Ctx) (s : Store) (ubd : UnbondingDelegation) (infractionHeight : ℤ)
    (slashFactor : ℚ) : Decidable (s.Covers ctx ubd infractionHeight slashFactor) :=
  inferInstanceAs (Decidable (_ ∨ _ ∨ _ ∧ _))

theorem pendingBalance_of_holds (hheld : s.Holds ubd) :
    pendingBalance s ubd.delegatorAddr ubd.validatorAddr = ubd.balance.amount := by
  rw [pendingBalance, hheld]
  rfl

theorem sub_int64_sub_eq_iff {x burned taken : ℤ} (hlow : -2 ^ 63 ≤ x) (hhigh : x < 2 ^ 63)
    (htaken : 0 ≤ taken) (hburned : 0 ≤ burned) (hfits : burned < 2 ^ 63) :
    x - int64 (x - burned) = taken ↔ burned = taken ∧ -2 ^ 63 ≤ x - burned := by
  by_cases hwrap : -2 ^ 63 ≤ x - burned
  · rw [int64_eq_self hwrap (by omega)]
    omega
  · have hint : int64 (x - burned) = x - burned + 2 ^ 64 := by
      rw [int64_eq_int64 (x := x - burned) (y := x - burned + 2 ^ 64) (-1) (by ring)]
      exact int64_eq_self (by omega) (by omega)
    omega

/-- One call burns what the record loses exactly if the record covers the slash. -/
theorem slashUnbondingDelegation_burns_iff (hs : s.UnbondingsSound) (hfactor : 0 ≤ slashFactor)
    (hheld : s.Holds ubd)
    (h : s.slashUnbondingDelegation ctx ubd infractionHeight slashFactor = .ok (s', amount)) :
    s.pool.looseTokens - s'.pool.looseTokens =
        pendingBalance s ubd.delegatorAddr ubd.validatorAddr -
          pendingBalance s' ubd.delegatorAddr ubd.validatorAddr ↔
      s.Covers ctx ubd infractionHeight slashFactor := by
  obtain ⟨hbalance, hinitial⟩ := hs.balance _ ubd hheld
  have hasked : 0 ≤ ubd.asked slashFactor :=
    UnbondingDelegation.asked_nonneg (hbalance.trans hinitial) hfactor
  obtain ⟨hskip, -, rfl⟩ | ⟨hslash, -, ⟨hmin, rfl⟩ | ⟨hmin, hfits, rfl⟩⟩ :=
    slashUnbondingDelegation_eq_ok h
  · simp [Store.Covers, hskip]
  · have hloose := hs.loose.1
    simp only [Store.Covers, sub_self, true_iff]
    omega
  · have hafter : pendingBalance ((s.setUnbondingDelegation (ubd.slashed slashFactor)).setPool
        { s.pool with looseTokens := int64 (s.pool.looseTokens - ubd.asked slashFactor) })
        ubd.delegatorAddr ubd.validatorAddr =
          ubd.balance.amount - min (ubd.asked slashFactor) ubd.balance.amount :=
      (pendingBalance_insert rfl _ _).trans (if_pos ⟨rfl, rfl⟩)
    rw [hafter, pendingBalance_of_holds hheld]
    have htaken : 0 ≤ min (ubd.asked slashFactor) ubd.balance.amount := le_min hasked hbalance
    have hexact := sub_int64_sub_eq_iff hs.loose.1 hs.loose.2 htaken hasked hfits
    have hsub : ubd.balance.amount - (ubd.balance.amount -
        min (ubd.asked slashFactor) ubd.balance.amount) =
          min (ubd.asked slashFactor) ubd.balance.amount := by ring
    rw [hsub]
    refine hexact.trans ?_
    simp only [Store.Covers, not_true, hslash, false_or]
    omega

end OneRecord

/-! ## The loop -/

section Loop

variable {ctx : Ctx} {infractionHeight : ℤ} {slashFactor : ℚ}

/-- One round of the loop of `Slash` over unbonding delegations. -/
def slashUnbondingRound (ctx : Ctx) (infractionHeight : ℤ) (slashFactor : ℚ) (acc : Store × ℤ)
    (ubd : UnbondingDelegation) : Outcome (Store × ℤ) :=
  Store.slashRecord (fun s => s.slashUnbondingDelegation ctx ubd infractionHeight slashFactor)
    acc.1 acc.2

/-- The balances of all unbonding delegations together. -/
def Store.unbondingTotal (s : Store) : ℤ :=
  KVStore.sumBy (fun _ ubd => ubd.balance.amount) s.unbondingDelegations

variable {s : Store} {acc : Store × ℤ} {ubd : UnbondingDelegation} {owner : Address}
  {ubds : List UnbondingDelegation}

theorem slashUnbondingRound_eq_ok {acc' : Store × ℤ}
    (h : slashUnbondingRound ctx infractionHeight slashFactor acc ubd = .ok acc') :
    ∃ amount, acc.1.slashUnbondingDelegation ctx ubd infractionHeight slashFactor =
      .ok (acc'.1, amount) ∧ acc'.2 = acc.2 - amount :=
  slashRecord_eq_ok h

/-- The total goes down by what the slashed record loses. -/
theorem unbondingTotal_slash {s' : Store} {amount : ℤ} (hheld : s.Holds ubd)
    (h : s.slashUnbondingDelegation ctx ubd infractionHeight slashFactor = .ok (s', amount)) :
    s.unbondingTotal - s'.unbondingTotal =
      pendingBalance s ubd.delegatorAddr ubd.validatorAddr -
        pendingBalance s' ubd.delegatorAddr ubd.validatorAddr := by
  obtain ⟨-, -, rfl⟩ | ⟨-, -, ⟨-, rfl⟩ | ⟨-, -, rfl⟩⟩ := slashUnbondingDelegation_eq_ok h
  · simp
  · simp
  · have hafter : pendingBalance ((s.setUnbondingDelegation (ubd.slashed slashFactor)).setPool
        { s.pool with looseTokens := int64 (s.pool.looseTokens - ubd.asked slashFactor) })
        ubd.delegatorAddr ubd.validatorAddr = (ubd.slashed slashFactor).balance.amount :=
      (pendingBalance_insert rfl _ _).trans (if_pos ⟨rfl, rfl⟩)
    have hbefore : s.unbondingTotal = ubd.balance.amount + KVStore.sumBy
        (fun _ ubd => ubd.balance.amount)
        (s.unbondingDelegations.erase (getUBDKey ubd.delegatorAddr ubd.validatorAddr)) :=
      KVStore.sumBy_eq_add_erase _ hheld
    rw [hafter, pendingBalance_of_holds hheld, hbefore]
    simp only [Store.unbondingTotal, Store.setPool, Store.setUnbondingDelegation, KVStore.sumBy_insert]
    simp only [UnbondingDelegation.slashed]
    ring

theorem Store.UnbondingsSound.slash {s' : Store} {amount : ℤ} (hs : s.UnbondingsSound)
    (hfactor : 0 ≤ slashFactor) (hheld : s.Holds ubd)
    (h : s.slashUnbondingDelegation ctx ubd infractionHeight slashFactor = .ok (s', amount)) :
    s'.UnbondingsSound := by
  obtain ⟨-, -, rfl⟩ | ⟨-, -, ⟨-, rfl⟩ | ⟨-, -, rfl⟩⟩ := slashUnbondingDelegation_eq_ok h
  · exact hs
  · exact hs
  · obtain ⟨hbalance, hinitial⟩ := hs.balance _ ubd hheld
    have hasked := UnbondingDelegation.asked_nonneg (hbalance.trans hinitial) hfactor
    refine ⟨?_, ?_, ?_, ?_⟩
    · exact KVStore.forall_insert hs.keyed rfl
    · refine KVStore.forall_insert hs.balance ?_
      simp only [UnbondingDelegation.slashed]
      omega
    · exact KVStore.forall_insert hs.listed rfl
    · exact int64_range _

theorem getUnbondingDelegationsFromValidator_eq_ok
    (h : s.getUnbondingDelegationsFromValidator owner = .ok ubds) :
    List.Forall₂ (fun entry ubd => s.unbondingDelegations[entry.2]? = some ubd)
      (s.unbondingDelegationsByVal.toList.filter fun entry => (ofLex entry.1).1 = owner) ubds := by
  refine (forall₂_of_mapM h).imp ?_
  intro entry ubd hentry
  cases hget : s.unbondingDelegations[entry.2]? with
  | none =>
    rw [hget] at hentry
    cases hentry
  | some u =>
    rw [hget] at hentry
    cases hentry
    rfl

/-- The records that the loop reads are stored, no two in one slot. -/
theorem Store.UnbondingsSound.read (hs : s.UnbondingsSound)
    (h : s.getUnbondingDelegationsFromValidator owner = .ok ubds) :
    (∀ ubd ∈ ubds, s.Holds ubd) ∧
      ubds.Pairwise fun a b => getUBDKey a.delegatorAddr a.validatorAddr ≠
        getUBDKey b.delegatorAddr b.validatorAddr := by
  have hread := getUnbondingDelegationsFromValidator_eq_ok h
  have hkeys : ∀ {entries : List _} {ubds : List UnbondingDelegation},
      List.Forall₂ (fun (entry : (Address ×ₗ Address) × (Address ×ₗ Address)) ubd =>
        s.unbondingDelegations[entry.2]? = some ubd) entries ubds →
      (∀ ubd ∈ ubds, s.Holds ubd) ∧
        ubds.map (fun u => getUBDKey u.delegatorAddr u.validatorAddr) = entries.map Prod.snd := by
    intro entries ubds hread
    induction hread with
    | nil => simp
    | @cons entry ubd entries ubds hget _ ih =>
      have hkey := hs.keyed _ _ hget
      refine ⟨?_, by rw [List.map_cons, List.map_cons, hkey, ih.2]⟩
      intro u hu
      rcases List.mem_cons.mp hu with rfl | hu
      · rw [Holds, getUnbondingDelegation, hkey, hget]
      · exact ih.1 u hu
  obtain ⟨hheld, hmap⟩ := hkeys hread
  refine ⟨hheld, ?_⟩
  rw [← List.pairwise_map (f := fun u : UnbondingDelegation => getUBDKey u.delegatorAddr u.validatorAddr)
    (R := (· ≠ ·)), hmap, List.pairwise_map]
  -- two entries with one target would have one key
  have hsorted := (KVStore.toList_pairwise s.unbondingDelegationsByVal).filter
    (fun entry => (ofLex entry.1).1 = owner)
  refine hsorted.imp_of_mem ?_
  intro x y hx hy hlt heq
  have hlisted : ∀ entry ∈ s.unbondingDelegationsByVal.toList,
      entry.2 = getUBDKey (ofLex entry.1).2 (ofLex entry.1).1 :=
    fun entry hentry => hs.listed _ _ (KVStore.mem_toList.mp hentry)
  rw [hlisted x (List.mem_of_mem_filter hx), hlisted y (List.mem_of_mem_filter hy)] at heq
  have hpair : ofLex x.1 = ofLex y.1 := by
    have hfields := toLex.injective heq
    exact Prod.ext (congrArg Prod.snd hfields) (congrArg Prod.fst hfields)
  exact hlt.ne (ofLex.injective hpair)

/-- When its turn comes, each record is still stored as it was read. -/
theorem meets_holds {acc' : Store × ℤ} (hheld : ∀ ubd ∈ ubds, acc.1.Holds ubd)
    (hdistinct : ubds.Pairwise fun a b => getUBDKey a.delegatorAddr a.validatorAddr ≠
      getUBDKey b.delegatorAddr b.validatorAddr)
    (h : ubds.foldlM (slashUnbondingRound ctx infractionHeight slashFactor) acc = .ok acc') :
    Run.Meets (fun acc ubd => acc.1.Holds ubd)
      (Run.historyOf (slashUnbondingRound ctx infractionHeight slashFactor) acc ubds) := by
  induction ubds generalizing acc with
  | nil => simp [Run.historyOf, Run.Meets]
  | cons ubd ubds ih =>
    rw [List.foldlM_cons, bind_eq_ok] at h
    obtain ⟨acc₁, hround, h⟩ := h
    rw [List.pairwise_cons] at hdistinct
    have hrest : Run.Meets (fun acc ubd => acc.1.Holds ubd)
        (Run.historyOf (slashUnbondingRound ctx infractionHeight slashFactor) acc₁ ubds) := by
      refine ih (fun u hu => ?_) hdistinct.2 h
      obtain ⟨amount, hslash, -⟩ := slashUnbondingRound_eq_ok hround
      exact (slashUnbondingDelegation_other hslash (hdistinct.1 u hu)).trans
        (hheld u (List.mem_cons_of_mem _ hu))
    intro entry hentry
    rw [Run.historyOf, hround, List.mem_cons] at hentry
    rcases hentry with rfl | hentry
    · exact hheld ubd (by simp)
    · exact hrest entry hentry

/-- The loop burns, at every point, what the records have lost so far, exactly if every record covers
the slash when its turn comes. -/
theorem slashUnbondingRound_burns_iff (hs : s.UnbondingsSound) (hfactor : 0 ≤ slashFactor)
    {slashAmount : ℤ} (hread : s.getUnbondingDelegationsFromValidator owner = .ok ubds)
    (h : ubds.foldlM (slashUnbondingRound ctx infractionHeight slashFactor) (s, slashAmount) = .ok acc)
    :
    Run.Always (fun acc : Store × ℤ => s.pool.looseTokens - acc.1.pool.looseTokens =
        s.unbondingTotal - acc.1.unbondingTotal)
        (Run.historyOf (slashUnbondingRound ctx infractionHeight slashFactor) (s, slashAmount) ubds)
        acc ↔
      Run.Meets (fun acc ubd => acc.1.Covers ctx ubd infractionHeight slashFactor)
        (Run.historyOf (slashUnbondingRound ctx infractionHeight slashFactor) (s, slashAmount)
          ubds) := by
  obtain ⟨hheld, hdistinct⟩ := hs.read hread
  refine Run.always_iff (fun acc : Store × ℤ => acc.1.UnbondingsSound) hs (by simp) ?_ ?_
    (Run.of_foldlM h) (meets_holds (by exact hheld) hdistinct h)
  · intro acc ubd acc' hacc hheld hround
    obtain ⟨amount, hslash, -⟩ := slashUnbondingRound_eq_ok hround
    exact hacc.slash hfactor hheld hslash
  · intro acc ubd acc' hacc hsame hheld hround
    obtain ⟨amount, hslash, -⟩ := slashUnbondingRound_eq_ok hround
    have htotal := unbondingTotal_slash hheld hslash
    have hone := slashUnbondingDelegation_burns_iff hacc hfactor hheld hslash
    rw [← hone, ← htotal]
    constructor <;> intro heq <;> linarith

/-- Slashing an unbonding delegation burns what the record loses exactly if the record covers the
slash, and the loop of `Slash` burns what the records lose exactly if all of them do. -/
theorem slash_burns_what_it_takes_iff {s : Store} (hs : s.UnbondingsSound)
    (hfactor : 0 ≤ slashFactor) :
    (∀ ubd s' amount, s.Holds ubd →
      s.slashUnbondingDelegation ctx ubd infractionHeight slashFactor = .ok (s', amount) →
      (s.pool.looseTokens - s'.pool.looseTokens =
          pendingBalance s ubd.delegatorAddr ubd.validatorAddr -
            pendingBalance s' ubd.delegatorAddr ubd.validatorAddr ↔
        s.Covers ctx ubd infractionHeight slashFactor)) ∧
    ∀ owner ubds slashAmount acc, s.getUnbondingDelegationsFromValidator owner = .ok ubds →
      ubds.foldlM (slashUnbondingRound ctx infractionHeight slashFactor) (s, slashAmount) = .ok acc →
      (Run.Always (fun acc : Store × ℤ => s.pool.looseTokens - acc.1.pool.looseTokens =
          s.unbondingTotal - acc.1.unbondingTotal)
          (Run.historyOf (slashUnbondingRound ctx infractionHeight slashFactor) (s, slashAmount) ubds)
          acc ↔
        Run.Meets (fun acc ubd => acc.1.Covers ctx ubd infractionHeight slashFactor)
          (Run.historyOf (slashUnbondingRound ctx infractionHeight slashFactor) (s, slashAmount)
            ubds)) := by
  constructor
  · intro ubd s' amount hheld h
    exact slashUnbondingDelegation_burns_iff hs hfactor hheld h
  · intro owner ubds slashAmount acc hread h
    exact slashUnbondingRound_burns_iff hs hfactor hread h

end Loop

namespace Example

/-- An unbonding of four tokens that a slash has left one of. -/
def slashedUnbonding : List Op := [create 1 10, unbond 1 1 4, .slash [101] 0 10 (3 / 4)]

end Example

theorem slash_burns_what_it_takes_iff_example :
    ∃ st ubd s' amount, Run step (Example.genesis 2)
        (Run.historyOf step (Example.genesis 2) Example.slashedUnbonding) st ∧
      st.store.getUnbondingDelegation [1] [1] = some ubd ∧
      st.store.slashUnbondingDelegation st.ctx ubd 0 (1 / 4) = .ok (s', amount) ∧
      st.store.pool.looseTokens - s'.pool.looseTokens =
        pendingBalance st.store ubd.delegatorAddr ubd.validatorAddr -
          pendingBalance s' ubd.delegatorAddr ubd.validatorAddr := by
  obtain ⟨st, hrun, htest⟩ := Run.of_leadsTo step (Example.genesis 2) Example.slashedUnbonding
    (fun st => decide (st.store.UnbondingsSound ∧
      ∃ ubd ∈ st.store.getUnbondingDelegation [1] [1], st.store.Holds ubd ∧
        st.store.Covers st.ctx ubd 0 (1 / 4) ∧
        passes (fun _ => true) (st.store.slashUnbondingDelegation st.ctx ubd 0 (1 / 4)) = true))
    (by decide +kernel)
  obtain ⟨hsound, ubd, hubd, hheld, hcovers, hpasses⟩ := of_decide_eq_true htest
  obtain ⟨⟨s', amount⟩, hslash, -⟩ := exists_of_passes hpasses
  exact ⟨st, ubd, s', amount, hrun, hubd, hslash,
    ((slash_burns_what_it_takes_iff hsound (by norm_num)).1 ubd _ _ hheld hslash).mpr hcovers⟩

/-- The second slash by three quarters burns three tokens and finds one. -/
theorem slash_burns_more_than_it_takes :
    ∃ st ubd s' amount, Run step (Example.genesis 2)
        (Run.historyOf step (Example.genesis 2) Example.slashedUnbonding) st ∧
      st.store.UnbondingsSound ∧ st.store.getUnbondingDelegation [1] [1] = some ubd ∧
      st.store.slashUnbondingDelegation st.ctx ubd 0 (3 / 4) = .ok (s', amount) ∧
      st.store.pool.looseTokens - s'.pool.looseTokens = 3 ∧
      pendingBalance st.store [1] [1] - pendingBalance s' [1] [1] = 1 := by
  obtain ⟨st, hrun, htest⟩ := Run.of_leadsTo step (Example.genesis 2) Example.slashedUnbonding
    (fun st => decide (st.store.UnbondingsSound ∧
      ∃ ubd ∈ st.store.getUnbondingDelegation [1] [1],
        passes (fun result => decide (
            st.store.pool.looseTokens - result.1.pool.looseTokens = 3 ∧
              pendingBalance st.store [1] [1] - pendingBalance result.1 [1] [1] = 1))
          (st.store.slashUnbondingDelegation st.ctx ubd 0 (3 / 4)) = true))
    (by decide +kernel)
  obtain ⟨hsound, ubd, hubd, hpasses⟩ := of_decide_eq_true htest
  obtain ⟨⟨s', amount⟩, hslash, hresult⟩ := exists_of_passes hpasses
  exact ⟨st, ubd, s', amount, hrun, hsound, hubd, hslash, of_decide_eq_true hresult⟩

end Tepleton.Stake
