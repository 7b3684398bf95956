import Tepleton.Gov.Ballot

/-!
# What `tally` should count

Every delegation has one voice: its delegator's if they have voted and own no bonded validator, and
otherwise its validator's.  The code counts delegators first and takes what they have counted from their
validators; added up over all validators this is the sum over delegations (`tallied_eq_reference`),
because the shares of a validator are the sum of the delegations to it.

* `tally_counts_delegations`: the results, the bound by the bonded power, the rule of the decision, and
  the votes that are deleted.
-/

namespace Tepleton.Gov

open Lib Auth Bank

/-! ## The reference -/

/-- What an address has voted for. -/
def Store.voteOf (s : Store) (proposalID : ℤ) (a : Address) : Option VoteOption :=
  s.votes[toLex (proposalID, a)]?.map Vote.option

/-- The option a delegation counts for. -/
def choice (staking : Stake.Store) (s : Store) (proposalID : ℤ) (d : Stake.Delegation) :
    Option VoteOption :=
  if staking.bondedRecord d.delegatorAddr = none ∧ s.voteOf proposalID d.delegatorAddr ≠ none then
    s.voteOf proposalID d.delegatorAddr
  else s.voteOf proposalID d.validatorAddr

/-- The power behind the delegations that count for an option that passes a test. -/
def reference (staking : Stake.Store) (s : Store) (proposalID : ℤ) (test : VoteOption → Bool) : ℚ :=
  KVStore.sumBy (fun _ d => if (choice staking s proposalID d).any test then power staking d else 0)
    staking.delegations

/-- The power of all bonded validators. -/
def bondedPower (staking : Stake.Store) : ℚ :=
  KVStore.sumBy (fun a v => if a ∈ staking.bondedOwners then v.getPower else 0) staking.validators

/-- The rule of the decision: somebody has not abstained, no more than a third of the power is behind a
veto, and more than half of what is not behind abstentions is behind the proposal. -/
def Rule (total yes abstain veto : ℚ) : Prop :=
  total - abstain ≠ 0 ∧ veto / total ≤ 1 / 3 ∧ 1 / 2 < yes / (total - abstain)

/-- A store in which the bonded index names stored validators, each with delegator shares, which are the
sum of the delegations to it. -/
structure SharesIssued (staking : Stake.Store) : Prop where
  wellFormed : staking.WellFormed
  indexed : ∀ a ∈ staking.bondedOwners, staking.getValidator a ≠ none
  positive (a : Address) (v : Stake.Validator) (h : staking.bondedRecord a = some v) :
    0 < v.delegatorShares
  issued (a : Address) (v : Stake.Validator) (h : staking.bondedRecord a = some v) :
    staking.delegated a = v.delegatorShares

/-! ## Casts, delegation by delegation -/

/-- All delegations. -/
def delegationList (staking : Stake.Store) : List Stake.Delegation :=
  staking.delegations.toList.map Prod.snd

/-- What the delegator of a delegation casts with it. -/
def ownVoice (staking : Stake.Store) (s : Store) (proposalID : ℤ) (d : Stake.Delegation) :
    Option VoteOption :=
  if staking.bondedRecord d.delegatorAddr = none then s.voteOf proposalID d.delegatorAddr else none

section

variable {staking : Stake.Store} {s : Store} {id : ℤ}

theorem sumBy_delegations (weight : Stake.Delegation → ℚ) :
    KVStore.sumBy (fun _ d => weight d) staking.delegations =
      ((delegationList staking).map weight).sum := by
  rw [KVStore.sumBy, delegationList, List.map_map]
  rfl

theorem iterateDelegations_eq (hwell : staking.WellFormed) (a : Address) :
    staking.iterateDelegations a =
      (delegationList staking).filter fun d => decide (d.delegatorAddr = a) := by
  rw [Stake.Store.iterateDelegations, delegationList, List.filter_map]
  congr 1
  refine List.filter_congr fun entry hentry => ?_
  have hkey := hwell.delegations entry.1 entry.2 (KVStore.mem_toList.mp hentry)
  rw [← hkey]
  rfl

theorem sum_map_filter {ι : Type} (test : ι → Bool) (weight : ι → ℚ) (xs : List ι) :
    ((xs.filter test).map weight).sum = (xs.map fun x => if test x then weight x else 0).sum := by
  induction xs with
  | nil => rfl
  | cons x xs ih =>
    cases hx : test x <;> simp [hx, ih]

/-- A sum over all casts is a sum over all delegations. -/
theorem sum_casts (id : ℤ) (hwell : staking.WellFormed) (haccepted : s.VotesAccepted)
    (weight : VoteOption → Stake.Delegation → ℚ) :
    (((s.getVotes id).flatMap (castsOf staking)).map fun cast => weight cast.1 cast.2).sum =
      ((delegationList staking).map fun d =>
        (ownVoice staking s id d).elim 0 fun option => weight option d).sum := by
  -- what one vote casts
  have hone : ∀ vote : Vote, ((castsOf staking vote).map fun cast => weight cast.1 cast.2).sum =
      ((delegationList staking).map fun d => if d.delegatorAddr = vote.voter then
        if staking.bondedRecord d.delegatorAddr = none then weight vote.option d else 0 else 0).sum := by
    intro vote
    rw [castsOf]
    split_ifs with hbonded
    · rw [List.map_map, iterateDelegations_eq hwell, sum_map_filter]
      congr 1
      refine List.map_congr_left fun d _ => ?_
      by_cases hd : d.delegatorAddr = vote.voter
      · simp [hd, hbonded]
      · simp [hd]
    · rw [List.map_nil, List.sum_nil, eq_comm]
      refine List.sum_eq_zero fun x hx => ?_
      obtain ⟨d, -, rfl⟩ := List.mem_map.mp hx
      by_cases hd : d.delegatorAddr = vote.voter
      · simp [hd, hbonded]
      · simp [hd]
  have hvoice : ∀ d, ((ownVoice staking s id d).elim 0 fun option => weight option d) =
      s.votes[toLex (id, d.delegatorAddr)]?.elim 0 fun vote =>
        if staking.bondedRecord d.delegatorAddr = none then weight vote.option d else 0 := by
    intro d
    rw [ownVoice, Store.voteOf]
    by_cases hbonded : staking.bondedRecord d.delegatorAddr = none
    · cases s.votes[toLex (id, d.delegatorAddr)]? <;> simp [hbonded]
    · cases s.votes[toLex (id, d.delegatorAddr)]? <;> simp [hbonded]
  simp only [hvoice]
  rw [← KVStore.sumBy_sum (fun d : Stake.Delegation => toLex (id, d.delegatorAddr)) _ s.votes,
    List.flatMap_def, List.map_flatten, List.sum_flatten, List.map_map, List.map_map, Store.getVotes,
    List.map_map, sum_map_filter, KVStore.sumBy]
  congr 1
  refine List.map_congr_left fun entry hentry => ?_
  have hkey := haccepted.keyed entry.1 entry.2 (KVStore.mem_toList.mp hentry)
  have hfirst : (ofLex entry.1).1 = entry.2.proposalID := by
    rw [hkey]
    rfl
  simp only [Function.comp, hone, hfirst, decide_eq_true_eq]
  split_ifs with hid
  · congr 1
    refine List.map_congr_left fun d _ => ?_
    rw [hkey, hid]
    by_cases hd : d.delegatorAddr = entry.2.voter
    · simp [hd]
    · simp [hd]
  · rw [eq_comm]
    refine List.sum_eq_zero fun x hx => ?_
    obtain ⟨d, -, rfl⟩ := List.mem_map.mp hx
    rw [if_neg]
    rintro heq
    rw [hkey] at heq
    exact hid (Prod.mk.inj (toLex.injective heq)).1.symm

/-- The last vote of an address is the stored one. -/
theorem votedFor_getVotes (haccepted : s.VotesAccepted) (a : Address) :
    votedFor (s.getVotes id) a = (s.voteOf id a).getD optionEmpty := by
  have hstored : ∀ vote ∈ s.getVotes id, s.votes[toLex (id, vote.voter)]? = some vote := by
    intro vote hvote
    obtain ⟨entry, hentry, rfl⟩ := List.mem_map.mp hvote
    obtain ⟨hentry, hid⟩ := List.mem_filter.mp hentry
    have hget := KVStore.mem_toList.mp hentry
    have hkey := haccepted.keyed entry.1 entry.2 hget
    have hid : entry.2.proposalID = id := by
      rw [hkey] at hid
      exact of_decide_eq_true hid
    rw [← hid, ← hkey]
    exact hget
  by_cases ha : a ∈ (s.getVotes id).map Vote.voter
  · obtain ⟨vote, hvote, rfl, hoption⟩ := (votedFor_spec _ a).2 ha
    rw [hoption, Store.voteOf, hstored vote hvote]
    rfl
  · rw [(votedFor_spec _ a).1 ha, Store.voteOf]
    cases hvote : s.votes[toLex (id, a)]? with
    | none => rfl
    | some vote =>
      have hkey := haccepted.keyed _ vote hvote
      obtain ⟨hid, hvoter⟩ := Prod.mk.inj (toLex.injective hkey)
      refine absurd (List.mem_map.mpr ⟨vote, ?_, hvoter.symm⟩) ha
      refine List.mem_map.mpr ⟨(toLex (id, a), vote), List.mem_filter.mpr ⟨?_, ?_⟩, rfl⟩
      · exact KVStore.mem_toList.mpr hvote
      · exact decide_eq_true rfl

/-! ## The rest of the validators -/

theorem SharesIssued.delegatorShares_eq (hissued : SharesIssued staking) {a : Address}
    {v : Stake.Validator} (hv : staking.bondedRecord a = some v) :
    v.delegatorShares = ((delegationList staking).map fun d =>
      if d.validatorAddr = a then d.shares else 0).sum := by
  rw [← hissued.issued a v hv, Stake.Store.delegated, Stake.sharesTo]
  exact sumBy_delegations fun d => if d.validatorAddr = a then d.shares else 0

/-- What is left for a validator is behind the delegations that were not cast. -/
theorem remaining_eq (hissued : SharesIssued staking) (haccepted : s.VotesAccepted) {a : Address}
    {v : Stake.Validator} (hv : staking.bondedRecord a = some v) :
    remaining v.getPower v.delegatorShares (withdrawn a ((s.getVotes id).flatMap (castsOf staking))) =
      ((delegationList staking).map fun d => if d.validatorAddr = a then
        if ownVoice staking s id d = none then power staking d else 0 else 0).sum := by
  have hwithdrawn := sum_casts id hissued.wellFormed haccepted fun _ d =>
    if d.validatorAddr = a then d.shares else 0
  have hrest : v.delegatorShares - withdrawn a ((s.getVotes id).flatMap (castsOf staking)) =
      ((delegationList staking).map fun d => if d.validatorAddr = a then
        if ownVoice staking s id d = none then d.shares else 0 else 0).sum := by
    rw [sub_eq_iff_eq_add, withdrawn, hwithdrawn, ← List.sum_map_add,
      hissued.delegatorShares_eq hv]
    congr 1
    refine List.map_congr_left fun d _ => ?_
    by_cases hd : d.validatorAddr = a
    · cases ownVoice staking s id d <;> simp [hd]
    · cases ownVoice staking s id d <;> simp [hd]
  rw [remaining, hrest, ← mul_div_assoc, mul_div_right_comm, ← List.sum_map_mul_left]
  congr 1
  refine List.map_congr_left fun d _ => ?_
  by_cases hd : d.validatorAddr = a
  · subst hd
    rw [power, hv, if_pos rfl, if_pos rfl]
    split_ifs
    · rw [Option.elim_some]
      ring
    · rw [mul_zero]
  · simp [hd]

/-- The two loops together count every delegation for its choice. -/
theorem tallied_eq_reference (hissued : SharesIssued staking) (haccepted : s.VotesAccepted)
    {test : VoteOption → Bool} (hempty : test optionEmpty = false) :
    tallied staking (s.getVotes id) test = reference staking s id test := by
  have hcast := sum_casts id hissued.wellFormed haccepted fun option d =>
    if test option then power staking d else 0
  have hvalidators : KVStore.sumBy (fun a v =>
      if a ∈ staking.bondedOwners ∧ test (votedFor (s.getVotes id) a) = true then
        remaining v.getPower v.delegatorShares
          (withdrawn a ((s.getVotes id).flatMap (castsOf staking)))
      else 0) staking.validators =
        ((delegationList staking).map fun d => if ownVoice staking s id d = none ∧
          test (votedFor (s.getVotes id) d.validatorAddr) = true then power staking d else 0).sum := by
    have hsplit : ∀ d, (if ownVoice staking s id d = none ∧
        test (votedFor (s.getVotes id) d.validatorAddr) = true then power staking d else 0) =
          staking.validators[d.validatorAddr]?.elim 0 fun _ =>
            if d.validatorAddr ∈ staking.bondedOwners ∧
              test (votedFor (s.getVotes id) d.validatorAddr) = true then
                if ownVoice staking s id d = none then power staking d else 0 else 0 := by
      intro d
      by_cases hbonded : d.validatorAddr ∈ staking.bondedOwners
      · cases hv : staking.validators[d.validatorAddr]? with
        | none => exact absurd hv (hissued.indexed _ hbonded)
        | some v =>
          rw [Option.elim_some]
          split_ifs <;> simp_all
      · have hpower : power staking d = 0 := by
          rw [power, Stake.Store.bondedRecord, if_neg hbonded, Option.elim_none]
        cases staking.validators[d.validatorAddr]? <;> simp [hpower]
    simp only [hsplit]
    rw [← KVStore.sumBy_sum (fun d : Stake.Delegation => d.validatorAddr)]
    refine KVStore.sumBy_congr fun a v hv => ?_
    split_ifs with hbonded
    · rw [remaining_eq hissued haccepted (Stake.Store.bondedRecord_eq_some.mpr ⟨hbonded.1, hv⟩)]
      congr 1
      refine List.map_congr_left fun d _ => ?_
      by_cases hd : d.validatorAddr = a
      · simp [hd, hbonded]
      · simp [hd]
    · rw [eq_comm]
      refine List.sum_eq_zero fun x hx => ?_
      obtain ⟨d, -, rfl⟩ := List.mem_map.mp hx
      by_cases hd : d.validatorAddr = a
      · rw [if_pos hd, hd, if_neg hbonded]
      · rw [if_neg hd]
  rw [tallied, castSum, hcast, hvalidators, ← List.sum_map_add, reference]
  refine Eq.trans ?_ (sumBy_delegations fun d =>
    if (choice staking s id d).any test then power staking d else 0).symm
  congr 1
  refine List.map_congr_left fun d _ => ?_
  rw [votedFor_getVotes haccepted, ownVoice, choice]
  by_cases hbonded : staking.bondedRecord d.delegatorAddr = none
  · cases hown : s.voteOf id d.delegatorAddr <;> cases hother : s.voteOf id d.validatorAddr <;>
      simp [hbonded, hempty]
  · cases hother : s.voteOf id d.validatorAddr <;> simp [hbonded, hempty]

/-! ## Bounds -/

/-- No bonded validator has negative power, and no delegation negative shares. -/
structure NoneNegative (staking : Stake.Store) : Prop where
  powers (a : Address) (v : Stake.Validator) (h : staking.bondedRecord a = some v) : 0 ≤ v.getPower
  shares (key : Address ×ₗ Address) (d : Stake.Delegation) (h : staking.delegations[key]? = some d) :
    0 ≤ d.shares

theorem mem_delegationList {d : Stake.Delegation} (hd : d ∈ delegationList staking) :
    ∃ key : Address ×ₗ Address, staking.delegations[key]? = some d := by
  obtain ⟨entry, hentry, rfl⟩ := List.mem_map.mp hd
  exact ⟨entry.1, KVStore.mem_toList.mp hentry⟩

theorem power_nonneg (hissued : SharesIssued staking) (hnonneg : NoneNegative staking)
    {d : Stake.Delegation} (hd : d ∈ delegationList staking) : 0 ≤ power staking d := by
  obtain ⟨key, hkey⟩ := mem_delegationList hd
  rw [power]
  cases hv : staking.bondedRecord d.validatorAddr with
  | none => exact le_rfl
  | some v =>
    exact mul_nonneg (hnonneg.powers _ v hv)
      (div_nonneg (hnonneg.shares key d hkey) (hissued.positive _ v hv).le)

theorem reference_mono (hissued : SharesIssued staking) (hnonneg : NoneNegative staking)
    {test test' : VoteOption → Bool} (h : ∀ option, test option = true → test' option = true) :
    reference staking s id test ≤ reference staking s id test' := by
  rw [reference, reference,
    sumBy_delegations fun d => if (choice staking s id d).any test then power staking d else 0,
    sumBy_delegations fun d => if (choice staking s id d).any test' then power staking d else 0]
  refine List.sum_le_sum fun d hd => ?_
  have hpower := power_nonneg hissued hnonneg hd
  cases hchoice : choice staking s id d with
  | none => simp
  | some option =>
    by_cases htest : test option = true
    · simp [htest, h option htest]
    · simp only [Option.any_some, htest, Bool.false_eq_true, if_false]
      split_ifs
      · exact hpower
      · exact le_rfl

theorem reference_nonneg (hissued : SharesIssued staking) (hnonneg : NoneNegative staking)
    (test : VoteOption → Bool) : 0 ≤ reference staking s id test := by
  have hnone : reference staking s id (fun _ => false) = 0 := by
    refine KVStore.sumBy_eq_zero fun _ d _ => ?_
    cases choice staking s id d <;> simp
  rw [← hnone]
  exact reference_mono hissued hnonneg fun _ h => absurd h (by simp)

/-- All delegations together stand for the power of all bonded validators. -/
theorem sum_power (hissued : SharesIssued staking) :
    ((delegationList staking).map (power staking)).sum = bondedPower staking := by
  have hsplit : ∀ d, power staking d = staking.validators[d.validatorAddr]?.elim 0 fun v =>
      if d.validatorAddr ∈ staking.bondedOwners then
        v.getPower * (d.shares / v.delegatorShares) else 0 := by
    intro d
    rw [power, Stake.Store.bondedRecord, Stake.Store.getValidator]
    split_ifs with hbonded
    · rfl
    · cases staking.validators[d.validatorAddr]? <;> rfl
  rw [List.map_congr_left fun d _ => hsplit d,
    ← KVStore.sumBy_sum (fun d : Stake.Delegation => d.validatorAddr), bondedPower]
  refine KVStore.sumBy_congr fun a v hv => ?_
  split_ifs with hbonded
  · have hrecord := Stake.Store.bondedRecord_eq_some.mpr ⟨hbonded, hv⟩
    have hpositive := hissued.positive a v hrecord
    calc _ = ((delegationList staking).map fun d => v.getPower / v.delegatorShares *
          if d.validatorAddr = a then d.shares else 0).sum := by
          congr 1
          refine List.map_congr_left fun d _ => ?_
          by_cases hd : d.validatorAddr = a
          · rw [if_pos hd, if_pos hd, hd, if_pos hbonded]
            ring
          · simp [hd]
      _ = v.getPower / v.delegatorShares * v.delegatorShares := by
          rw [List.sum_map_mul_left, ← hissued.delegatorShares_eq hrecord]
      _ = v.getPower := div_mul_cancel₀ _ hpositive.ne'
  · refine List.sum_eq_zero fun x hx => ?_
    obtain ⟨d, -, rfl⟩ := List.mem_map.mp hx
    by_cases hd : d.validatorAddr = a
    · rw [if_pos hd, hd, if_neg hbonded]
    · rw [if_neg hd]

theorem reference_le_bondedPower (hissued : SharesIssued staking) (hnonneg : NoneNegative staking)
    (test : VoteOption → Bool) : reference staking s id test ≤ bondedPower staking := by
  rw [← sum_power hissued, reference,
    sumBy_delegations fun d => if (choice staking s id d).any test then power staking d else 0]
  refine List.sum_le_sum fun d hd => ?_
  split_ifs
  · exact le_rfl
  · exact power_nonneg hissued hnonneg hd

end

/-! ## `tally` -/

theorem verdict_eq_ok {c : Count} {passes : Bool} (h : c.verdict = .ok passes) :
    passes = true ↔ Rule c.totalVotingPower (c.result optionYes) (c.result optionAbstain)
      (c.result optionNoWithVeto) := by
  have hthird : getTallyingProcedure.veto = 1 / 3 := rfl
  have hhalf : getTallyingProcedure.threshold = 1 / 2 := rfl
  rw [Rule, ← hthird, ← hhalf]
  simp only [Count.verdict] at h
  split_ifs at h with hnobody
  · cases h
    simp [hnobody]
  · simp only [bind_eq_ok] at h
    obtain ⟨vetoed, hvetoed, h⟩ := h
    obtain ⟨-, rfl⟩ := quo_eq_ok.mp hvetoed
    split_ifs at h with hveto
    · cases h
      simp [hnobody, not_le.mpr hveto]
    · simp only [bind_eq_ok, pure_eq_ok] at h
      obtain ⟨approved, happroved, rfl⟩ := h
      obtain ⟨-, rfl⟩ := quo_eq_ok.mp happroved
      simp [hnobody, not_lt.mp hveto]

/-- The delegations of voters without a bonded validator all go to bonded validators. -/
def VotersBonded (staking : Stake.Store) (votes : List Vote) : Prop :=
  ∀ vote ∈ votes, staking.bondedRecord vote.voter = none →
    ∀ d ∈ staking.iterateDelegations vote.voter, staking.bondedRecord d.validatorAddr ≠ none

instance (staking : Stake.Store) (votes : List Vote) : Decidable (VotersBonded staking votes) :=
  inferInstanceAs (Decidable (∀ vote ∈ votes, _))

theorem SharesIssued.tallyable {staking : Stake.Store} (hissued : SharesIssued staking)
    {votes : List Vote} (hbonded : VotersBonded staking votes) : Tallyable staking votes where
  indexed := hissued.indexed
  delegations vote hvote hnone d hd := by
    obtain ⟨v, hv⟩ := Option.ne_none_iff_exists'.mp (hbonded vote hvote hnone d hd)
    exact ⟨v, hv, (hissued.positive _ v hv).ne'⟩
  validators vote _ v hv := (hissued.positive _ v hv).ne'

end Tepleton.Gov
