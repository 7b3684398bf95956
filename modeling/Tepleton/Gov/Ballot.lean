import Tepleton.Gov.Schedule
import Tepleton.Stake.Steps

/-!
# What `tally` counts

The first loop of `tally` casts the delegations of every voter who owns no bonded validator, the second
one gives each bonded validator that has voted the rest of its power.  `Counted` follows the variables
through the first loop, `countVotes_spec` says when both loops return and what they have added up:
`tallied` does not mention the order of anything.

`tally_returns_iff` says when `tally` returns.  A voter with a delegation to a validator that is not
bonded makes it panic (`tally_halts`).
-/

namespace Tepleton.Stake.Store

open Lib

/-- The addresses under `ValidatorsBondedIndexKey`. -/
def bondedOwners (s : Store) : List Address := s.validatorsBonded.toList.map Prod.snd

/-- The record of a bonded validator. -/
def bondedRecord (s : Store) (a : Address) : Option Validator :=
  if a ∈ s.bondedOwners then s.getValidator a else none

variable {s : Store}

theorem bondedRecord_eq_some {a : Address} {v : Validator} :
    s.bondedRecord a = some v ↔ a ∈ s.bondedOwners ∧ s.getValidator a = some v := by
  rw [bondedRecord]
  split_ifs with ha <;> simp [ha]

theorem iterateValidatorsBonded_returns_iff :
    (∃ validators, s.iterateValidatorsBonded = .ok validators) ↔
      ∀ a ∈ s.bondedOwners, s.getValidator a ≠ none := by
  rw [iterateValidatorsBonded, mapM_returns_iff]
  refine forall₂_congr fun a _ => ?_
  cases hv : s.getValidator a <;> simp [getIndexed, hv]

theorem mem_iterateValidatorsBonded (hkeyed : s.Keyed) {validators : List Validator}
    (h : s.iterateValidatorsBonded = .ok validators) {v : Validator} :
    v ∈ validators ↔ s.bondedRecord v.owner = some v := by
  have hget : ∀ {a v}, s.getIndexed a = .ok v ↔ s.getValidator a = some v := by
    intro a v
    cases hv : s.getValidator a <;> simp [getIndexed, hv]
  rw [bondedRecord_eq_some]
  constructor
  · intro hv
    obtain ⟨a, ha, hindexed⟩ := exists_of_mem_mapM h hv
    rw [hget] at hindexed
    rw [hkeyed a v hindexed]
    exact ⟨ha, hindexed⟩
  · rintro ⟨ha, hv⟩
    obtain ⟨w, hw, hindexed⟩ := exists_mem_of_mapM h ha
    rw [hget, hv] at hindexed
    cases hindexed
    exact hw

end Tepleton.Stake.Store

namespace Tepleton.Gov

open Lib Auth Bank

/-! ## The first loop -/

/-- A delegation counted for an option. -/
abbrev Cast := VoteOption × Stake.Delegation

/-- The part of a bonded validator's power that stands behind a delegation. -/
def power (staking : Stake.Store) (d : Stake.Delegation) : ℚ :=
  (staking.bondedRecord d.validatorAddr).elim 0 fun v => v.getPower * (d.shares / v.delegatorShares)

/-- An option that is not the empty one. -/
def hasVoted (option : VoteOption) : Bool := decide (option ≠ optionEmpty)

/-- The power behind the casts whose options pass a test. -/
def castSum (staking : Stake.Store) (test : VoteOption → Bool) (casts : List Cast) : ℚ :=
  (casts.map fun cast => if test cast.1 then power staking cast.2 else 0).sum

/-- The shares of a validator that were cast by their delegators. -/
def withdrawn (a : Address) (casts : List Cast) : ℚ :=
  (casts.map fun cast => if cast.2.validatorAddr = a then cast.2.shares else 0).sum

/-- A delegation that can be counted. -/
def Countable (staking : Stake.Store) (d : Stake.Delegation) : Prop :=
  ∃ v ∈ staking.bondedRecord d.validatorAddr, v.delegatorShares ≠ 0

instance (staking : Stake.Store) (d : Stake.Delegation) : Decidable (Countable staking d) :=
  inferInstanceAs (Decidable (∃ v ∈ _, _))

/-- What a vote casts in the first loop. -/
def castsOf (staking : Stake.Store) (vote : Vote) : List Cast :=
  if staking.bondedRecord vote.voter = none then
    (staking.iterateDelegations vote.voter).map (Prod.mk vote.option)
  else []

/-- What everybody has voted for, the last vote of each. -/
def votedFor (votes : List Vote) : Address → VoteOption :=
  votes.foldl (fun voted vote => Function.update voted vote.voter vote.option) fun _ => optionEmpty

/-- A vote that can be counted: its voter owns a bonded validator, or all delegations of its voter can
be counted. -/
def VoteCountable (staking : Stake.Store) (vote : Vote) : Prop :=
  staking.bondedRecord vote.voter = none →
    ∀ d ∈ staking.iterateDelegations vote.voter, Countable staking d

instance (staking : Stake.Store) (vote : Vote) : Decidable (VoteCountable staking vote) :=
  inferInstanceAs (Decidable (_ → ∀ d ∈ _, _))

/-- The variables of `tally` after some casts, with the votes of the validators so far. -/
structure Counted (staking : Stake.Store) (casts : List Cast) (voted : Address → VoteOption)
    (c : Count) : Prop where
  results (option : VoteOption) : c.results[option]? =
    if validVoteOption option then some (castSum staking (fun o => o = option) casts) else none
  total : c.totalVotingPower = castSum staking hasVoted casts
  infos (a : Address) : c.currValidators[a]? = (staking.bondedRecord a).map fun v =>
    { govInfo v with minus := withdrawn a casts, vote := voted a }

variable {option : VoteOption} {staking : Stake.Store} {c : Count} {casts : List Cast}
  {voted : Address → VoteOption} {s : Store}

theorem ne_optionEmpty (h : validVoteOption option = true) : option ≠ optionEmpty := by
  rintro rfl
  exact absurd h (by decide)

@[simp] theorem castSum_append (staking : Stake.Store) (test : VoteOption → Bool)
    (casts casts' : List Cast) :
    castSum staking test (casts ++ casts') = castSum staking test casts + castSum staking test casts' := by
  simp [castSum]

@[simp] theorem castSum_singleton (staking : Stake.Store) (test : VoteOption → Bool) (cast : Cast) :
    castSum staking test [cast] = if test cast.1 then power staking cast.2 else 0 := by
  simp [castSum]

theorem getElem?_foldl_govInfo {validators : List Stake.Validator}
    (h : ∀ v ∈ validators, staking.bondedRecord v.owner = some v)
    (infos : KVStore Address ValidatorGovInfo) (a : Address) :
    (validators.foldl (fun infos v => infos.insert v.owner (govInfo v)) infos)[a]? =
      if a ∈ validators.map Stake.Validator.owner then (staking.bondedRecord a).map govInfo
      else infos[a]? := by
  induction validators generalizing infos with
  | nil => simp
  | cons v validators ih =>
    rw [List.foldl_cons, ih fun w hw => h w (List.mem_cons_of_mem _ hw), KVStore.getElem?_insert]
    by_cases ha : v.owner = a
    · subst ha
      simp [h v List.mem_cons_self]
    · simp [ha, Ne.symm ha]

theorem noResults_getElem? (option : VoteOption) :
    noResults[option]? = if validVoteOption option then some 0 else none := by
  simp only [noResults, KVStore.getElem?_insert, validVoteOption, Bool.or_eq_true, beq_iff_eq]
  by_cases hveto : optionNoWithVeto = option
  · simp [← hveto]
  by_cases hno : optionNo = option
  · simp [← hno]
  by_cases habstain : optionAbstain = option
  · simp [← habstain]
  by_cases hyes : optionYes = option
  · simp [← hyes]
  rw [if_neg hveto, if_neg hno, if_neg habstain, if_neg hyes, if_neg]
  · simp
  · tauto

theorem counted_startCount (hkeyed : staking.Keyed) {validators : List Stake.Validator}
    (h : staking.iterateValidatorsBonded = .ok validators) :
    Counted staking [] (fun _ => optionEmpty) (startCount validators) where
  results option := by
    rw [startCount, noResults_getElem?]
    simp [castSum]
  total := rfl
  infos a := by
    have hmem := fun v => Stake.Store.mem_iterateValidatorsBonded hkeyed h (v := v)
    have hinfo : (fun v => { govInfo v with minus := withdrawn a [], vote := optionEmpty }) =
        govInfo := by
      funext v
      simp [withdrawn, govInfo]
    rw [startCount, hinfo, getElem?_foldl_govInfo fun v hv => (hmem v).mp hv]
    split_ifs with ha
    · rfl
    · cases hv : staking.bondedRecord a with
      | none => rfl
      | some v =>
        have howner := hkeyed a v (Stake.Store.bondedRecord_eq_some.mp hv).2
        subst howner
        exact absurd (List.mem_map_of_mem ((hmem v).mpr hv)) ha

namespace Counted

variable {staking : Stake.Store} {casts : List Cast} {voted : Address → VoteOption} {c : Count}
  {option : VoteOption}

theorem result_of_valid (h : Counted staking casts voted c) (hvalid : validVoteOption option = true) :
    c.results[option]? = some (castSum staking (fun o => o = option) casts) := by
  rw [h.results, if_pos hvalid]

theorem results_insert (h : Counted staking casts voted c) (hvalid : validVoteOption option = true)
    (d : Stake.Delegation) (other : VoteOption) :
    (c.results.insert option (castSum staking (fun o => o = option) casts + power staking d))[other]? =
      if validVoteOption other then
        some (castSum staking (fun o => o = other) (casts ++ [(option, d)])) else none := by
  rw [KVStore.getElem?_insert]
  split_ifs with hsame hother hother
  · subst hsame
    simp
  · subst hsame
    exact absurd hvalid hother
  · simp [h.result_of_valid hother, hsame]
  · rw [h.results, if_neg hother]

theorem delegation {d : Stake.Delegation} (h : Counted staking casts voted c)
    (hvalid : validVoteOption option = true) (hcountable : Countable staking d) :
    ∃ c', countDelegation option c d = .ok c' ∧ Counted staking (casts ++ [(option, d)]) voted c' := by
  obtain ⟨v, hv, hshares⟩ := hcountable
  have hinfo := h.infos d.validatorAddr
  rw [hv, Option.map_some] at hinfo
  have hpower : v.getPower * (d.shares / v.delegatorShares) = power staking d := by
    rw [power, hv, Option.elim_some]
  have hquo : quo d.shares v.delegatorShares = .ok (d.shares / v.delegatorShares) :=
    quo_eq_ok.mpr ⟨hshares, rfl⟩
  simp only [countDelegation, hinfo, govInfo, hquo, bind, Except.bind, Count.add,
    h.result_of_valid hvalid, hpower]
  refine ⟨_, rfl, fun other => h.results_insert hvalid d other, ?_, fun a => ?_⟩
  · have hne := ne_optionEmpty hvalid
    simp [h.total, hasVoted, hne]
  · by_cases ha : d.validatorAddr = a
    · subst ha
      rw [KVStore.getElem?_insert_self, hv, Option.map_some]
      simp [govInfo, withdrawn]
    · rw [KVStore.getElem?_insert_of_ne _ _ ha, h.infos]
      simp [withdrawn, ha]

theorem countable_of_delegation {d : Stake.Delegation} {c' : Count} (h : Counted staking casts voted c)
    (hcount : countDelegation option c d = .ok c') : Countable staking d := by
  have hinfo := h.infos d.validatorAddr
  rw [countDelegation] at hcount
  cases hv : staking.bondedRecord d.validatorAddr with
  | none =>
    rw [hv, Option.map_none] at hinfo
    rw [hinfo] at hcount
    cases hcount
  | some v =>
    rw [hv, Option.map_some] at hinfo
    simp only [hinfo, bind_eq_ok] at hcount
    obtain ⟨delegatorShare, hquo, -⟩ := hcount
    exact ⟨v, hv, (quo_eq_ok.mp hquo).1⟩

theorem vote {vote : Vote} (h : Counted staking casts voted c)
    (hvalid : validVoteOption vote.option = true) :
    (VoteCountable staking vote → ∃ c', countVote staking c vote = .ok c' ∧
      Counted staking (casts ++ castsOf staking vote)
        (Function.update voted vote.voter vote.option) c') ∧
    ∀ c', countVote staking c vote = .ok c' → VoteCountable staking vote := by
  have hinfo := h.infos vote.voter
  cases hv : staking.bondedRecord vote.voter with
  | some v =>
    -- the vote of a validator is kept for the second loop
    rw [hv, Option.map_some] at hinfo
    have hcasts : castsOf staking vote = [] := by rw [castsOf, hv, if_neg (Option.some_ne_none v)]
    simp only [countVote, hinfo, hcasts, List.append_nil]
    refine ⟨fun _ => ⟨_, rfl, h.results, h.total, fun a => ?_⟩, fun _ _ => ?_⟩
    · by_cases ha : vote.voter = a
      · subst ha
        rw [KVStore.getElem?_insert_self, hv, Option.map_some, Function.update_self]
      · rw [KVStore.getElem?_insert_of_ne _ _ ha, h.infos, Function.update_of_ne (Ne.symm ha)]
    · intro hnone
      rw [hv] at hnone
      cases hnone
  | none =>
    rw [hv, Option.map_none] at hinfo
    have hcasts : castsOf staking vote =
        (staking.iterateDelegations vote.voter).map (Prod.mk vote.option) := by
      rw [castsOf, if_pos hv]
    have hloop : ((∃ c', (staking.iterateDelegations vote.voter).foldlM
        (countDelegation vote.option) c = .ok c') ↔
          ∀ d ∈ staking.iterateDelegations vote.voter, Countable staking d) ∧
        ∀ c', (staking.iterateDelegations vote.voter).foldlM (countDelegation vote.option) c =
          .ok c' → Counted staking (casts ++ ([] ++ staking.iterateDelegations vote.voter).map
            (Prod.mk vote.option)) voted c' := by
      refine foldlM_tracks
        (fun done c => Counted staking (casts ++ done.map (Prod.mk vote.option)) voted c)
        (Countable staking) (by simpa using h) ?_ fun _ hc hcount => hc.countable_of_delegation hcount
      intro done d _ c _ hc hcountable
      obtain ⟨c', hc', hcounted⟩ := hc.delegation hvalid hcountable
      exact ⟨c', hc', by simpa using hcounted⟩
    -- nobody looks up what somebody without a validator has voted for
    have hvoted : ∀ {c'}, Counted staking (casts ++ castsOf staking vote) voted c' →
        Counted staking (casts ++ castsOf staking vote)
          (Function.update voted vote.voter vote.option) c' := by
      intro c' hc'
      refine ⟨hc'.results, hc'.total, fun a => ?_⟩
      by_cases ha : a = vote.voter
      · rw [hc'.infos, ha, hv, Option.map_none, Option.map_none]
      · rw [hc'.infos, Function.update_of_ne ha]
    simp only [countVote, hinfo]
    constructor
    · intro hcountable
      obtain ⟨c', hc'⟩ := hloop.1.mpr (hcountable hv)
      refine ⟨c', hc', hvoted ?_⟩
      rw [hcasts]
      exact hloop.2 c' hc'
    · exact fun c' hc' _ => hloop.1.mp ⟨c', hc'⟩

theorem votes {validators : List Stake.Validator} {votes : List Vote} (hkeyed : staking.Keyed)
    (hvalidators : staking.iterateValidatorsBonded = .ok validators)
    (hvalid : ∀ vote ∈ votes, validVoteOption vote.option = true) :
    ((∃ c, votes.foldlM (countVote staking) (startCount validators) = .ok c) ↔
      ∀ vote ∈ votes, VoteCountable staking vote) ∧
    ∀ c, votes.foldlM (countVote staking) (startCount validators) = .ok c →
      Counted staking (votes.flatMap (castsOf staking)) (votedFor votes) c := by
  have hstart : Counted staking (([] : List Vote).flatMap (castsOf staking)) (votedFor [])
      (startCount validators) := counted_startCount hkeyed hvalidators
  refine foldlM_tracks
    (fun done c => Counted staking (done.flatMap (castsOf staking)) (votedFor done) c)
    (VoteCountable staking) hstart ?_
    fun hsplit hc hcount => (hc.vote (hvalid _ (by simp [hsplit]))).2 _ hcount
  intro done vote rest c hsplit hc hcountable
  obtain ⟨c', hc', hcounted⟩ := (hc.vote (hvalid _ (by simp [hsplit]))).1 hcountable
  refine ⟨c', hc', ?_⟩
  rw [List.flatMap_append]
  simpa [votedFor] using hcounted

end Counted

/-! ## The second loop -/

/-- What is left of a validator's power when some of its shares are withdrawn. -/
def remaining (power delegatorShares minus : ℚ) : ℚ :=
  power * ((delegatorShares - minus) / delegatorShares)

/-- What the second loop adds for the validators whose votes pass a test. -/
def infoSum (test : VoteOption → Bool) (infos : List ValidatorGovInfo) : ℚ :=
  (infos.map fun info =>
    if test info.vote then remaining info.power info.delegatorShares info.minus else 0).sum

@[simp] theorem infoSum_append (test : VoteOption → Bool) (infos infos' : List ValidatorGovInfo) :
    infoSum test (infos ++ infos') = infoSum test infos + infoSum test infos' := by
  simp [infoSum]

@[simp] theorem infoSum_singleton (test : VoteOption → Bool) (info : ValidatorGovInfo) :
    infoSum test [info] =
      if test info.vote then remaining info.power info.delegatorShares info.minus else 0 := by
  simp [infoSum]

/-- The variables of `tally` in the second loop, which started with `c`. -/
structure Added (c : Count) (infos : List ValidatorGovInfo) (state : Count × List Address) : Prop where
  results (option : VoteOption) : state.1.results[option]? =
    if validVoteOption option then some (c.result option + infoSum (fun o => o = option) infos) else none
  total : state.1.totalVotingPower = c.totalVotingPower + infoSum hasVoted infos

theorem Added.validator {infos : List ValidatorGovInfo} {state : Count × List Address}
    {info : ValidatorGovInfo} (h : Added c infos state)
    (hvalid : info.vote = optionEmpty ∨ validVoteOption info.vote = true) :
    ((info.vote ≠ optionEmpty → info.delegatorShares ≠ 0) →
      ∃ state', countValidator state info = .ok state' ∧ Added c (infos ++ [info]) state') ∧
    ∀ state', countValidator state info = .ok state' →
      info.vote ≠ optionEmpty → info.delegatorShares ≠ 0 := by
  obtain ⟨current, nonVoting⟩ := state
  have htotal : current.totalVotingPower = c.totalVotingPower + infoSum hasVoted infos := h.total
  by_cases hempty : info.vote = optionEmpty
  · refine ⟨fun _ => ⟨(current, nonVoting ++ [info.address]), ?_, ?_, ?_⟩, ?_⟩
    · simp [countValidator, hempty, pure, Except.pure]
    · intro option
      rw [h.results]
      split_ifs with hoption
      · have hne := (ne_optionEmpty hoption).symm
        simp [hempty, hne]
      · rfl
    · simp [htotal, hempty, hasVoted]
    · exact fun _ _ hne => absurd hempty hne
  · have hvalid := hvalid.resolve_left hempty
    constructor
    · intro hshares
      have hquo : quo (info.delegatorShares - info.minus) info.delegatorShares =
          .ok ((info.delegatorShares - info.minus) / info.delegatorShares) :=
        quo_eq_ok.mpr ⟨hshares hempty, rfl⟩
      have hresult := h.results info.vote
      rw [if_pos hvalid] at hresult
      simp only [countValidator, hempty, if_false, hquo, bind, Except.bind, Count.add, hresult, pure,
        Except.pure]
      refine ⟨_, rfl, fun option => ?_, ?_⟩
      · rw [KVStore.getElem?_insert]
        split_ifs with hsame hoption hoption
        · subst hsame
          simp [remaining, add_assoc]
        · subst hsame
          exact absurd hvalid hoption
        · rw [h.results, if_pos hoption]
          simp [hsame]
        · rw [h.results, if_neg hoption]
      · simp [htotal, hempty, hasVoted, remaining, add_assoc]
    · intro state' hcount _
      simp only [countValidator, hempty, if_false, bind_eq_ok] at hcount
      obtain ⟨percent, hquo, -⟩ := hcount
      exact (quo_eq_ok.mp hquo).1

theorem votedFor_spec (votes : List Vote) (a : Address) :
    (a ∉ votes.map Vote.voter → votedFor votes a = optionEmpty) ∧
      (a ∈ votes.map Vote.voter → ∃ vote ∈ votes, vote.voter = a ∧ votedFor votes a = vote.option) := by
  induction votes using List.reverseRecOn with
  | nil => simp [votedFor]
  | append_singleton votes vote ih =>
    have hupdate : votedFor (votes ++ [vote]) =
        Function.update (votedFor votes) vote.voter vote.option := by
      simp [votedFor]
    rw [hupdate]
    by_cases ha : a = vote.voter
    · subst ha
      simp only [List.map_append, List.map_cons, List.map_nil, List.mem_append, List.mem_singleton,
        or_true, not_true_eq_false, false_imp_iff, true_and, Function.update_self, true_imp_iff]
      exact ⟨vote, .inr rfl, rfl, rfl⟩
    · rw [Function.update_of_ne ha]
      simp only [List.map_append, List.map_cons, List.map_nil, List.mem_append, List.mem_singleton,
        ha, or_false]
      refine ⟨ih.1, fun hmem => ?_⟩
      obtain ⟨vote', hvote', hvoter, hoption⟩ := ih.2 hmem
      exact ⟨vote', .inl hvote', hvoter, hoption⟩

theorem mem_votes_iff {votes : List Vote} (hvalid : ∀ vote ∈ votes, validVoteOption vote.option = true)
    (a : Address) :
    (votedFor votes a = optionEmpty ∨ validVoteOption (votedFor votes a) = true) ∧
      (votedFor votes a ≠ optionEmpty ↔ a ∈ votes.map Vote.voter) := by
  obtain ⟨hnot, hvoted⟩ := votedFor_spec votes a
  by_cases ha : a ∈ votes.map Vote.voter
  · obtain ⟨vote, hvote, -, hoption⟩ := hvoted ha
    have hvalid := hvalid vote hvote
    simp [ha, hoption, hvalid, ne_optionEmpty hvalid]
  · simp [ha, hnot ha]

/-! ## Both loops -/

/-- What `tally` counts for the options that pass a test. -/
def tallied (staking : Stake.Store) (votes : List Vote) (test : VoteOption → Bool) : ℚ :=
  castSum staking test (votes.flatMap (castsOf staking)) +
    KVStore.sumBy (fun a v =>
      if a ∈ staking.bondedOwners ∧ test (votedFor votes a) = true then
        remaining v.getPower v.delegatorShares (withdrawn a (votes.flatMap (castsOf staking)))
      else 0) staking.validators

theorem Counted.infoSum_eq (h : Counted staking casts voted c) (order : RangeOrder ValidatorGovInfo)
    (test : VoteOption → Bool) :
    infoSum test (order.arrange (c.currValidators.toList.map Prod.snd)) =
      KVStore.sumBy (fun a v =>
        if a ∈ staking.bondedOwners ∧ test (voted a) = true then
          remaining v.getPower v.delegatorShares (withdrawn a casts) else 0) staking.validators := by
  have hperm : infoSum test (order.arrange (c.currValidators.toList.map Prod.snd)) =
      KVStore.sumBy (fun _ info => if test info.vote then
        remaining info.power info.delegatorShares info.minus else 0) c.currValidators := by
    rw [infoSum, ((order.perm _).map _).sum_eq, List.map_map, KVStore.sumBy]
    rfl
  rw [hperm, KVStore.sumBy_of_bind _ (t := staking.validators) (fun a v =>
    if a ∈ staking.bondedOwners then
      some { govInfo v with minus := withdrawn a casts, vote := voted a } else none)]
  · refine KVStore.sumBy_congr fun a v _ => ?_
    by_cases ha : a ∈ staking.bondedOwners
    · simp [ha, govInfo]
    · simp [ha]
  · intro a
    rw [h.infos, Stake.Store.bondedRecord]
    by_cases ha : a ∈ staking.bondedOwners
    · simp only [if_pos ha, Stake.Store.getValidator]
      rw [Option.map_eq_bind]
      rfl
    · simp [ha]

/-- What both loops of `tally` need: the bonded index names stored validators, the delegations of
voters without a bonded validator can be counted, and bonded validators that vote have delegator
shares. -/
@[mk_iff] structure Tallyable (staking : Stake.Store) (votes : List Vote) : Prop where
  indexed : ∀ a ∈ staking.bondedOwners, staking.getValidator a ≠ none
  delegations : ∀ vote ∈ votes, VoteCountable staking vote
  validators : ∀ vote ∈ votes, ∀ v ∈ staking.bondedRecord vote.voter, v.delegatorShares ≠ 0

instance (staking : Stake.Store) (votes : List Vote) : Decidable (Tallyable staking votes) :=
  decidable_of_iff' _ (tallyable_iff staking votes)

theorem Counted.result (h : Counted staking casts voted c) (hvalid : validVoteOption option = true)
    : c.result option = castSum staking (fun o => o = option) casts := by
  rw [Count.result, h.result_of_valid hvalid, Option.getD_some]

/-- The second loop, after the first one. -/
theorem Counted.secondLoop (h : Counted staking casts voted c)
    (hvoted : ∀ a, voted a = optionEmpty ∨ validVoteOption (voted a) = true)
    (order : RangeOrder ValidatorGovInfo) :
    let infos := order.arrange (c.currValidators.toList.map Prod.snd)
    ((∃ r, infos.foldlM countValidator (c, []) = .ok r) ↔
      ∀ a v, staking.bondedRecord a = some v → voted a ≠ optionEmpty → v.delegatorShares ≠ 0) ∧
    ∀ r, infos.foldlM countValidator (c, []) = .ok r → Added c infos r := by
  intro infos
  have hmem : ∀ info, info ∈ infos ↔ ∃ a v, staking.bondedRecord a = some v ∧
      { govInfo v with minus := withdrawn a casts, vote := voted a } = info := by
    intro info
    rw [(order.perm _).mem_iff, List.mem_map]
    simp only [Prod.exists, KVStore.mem_toList, exists_eq_right, h.infos, Option.map_eq_some_iff]
  have hstart : Added c [] (c, []) := by
    refine ⟨fun option => ?_, by simp [infoSum]⟩
    split_ifs with hoption
    · rw [h.result_of_valid hoption, h.result hoption]
      simp [infoSum]
    · rw [h.results, if_neg hoption]
  have hvalid : ∀ info ∈ infos, info.vote = optionEmpty ∨ validVoteOption info.vote = true := by
    intro info hinfo
    obtain ⟨a, v, -, rfl⟩ := (hmem info).mp hinfo
    exact hvoted a
  have hround : ∀ {done info rest}, infos = done ++ info :: rest → info ∈ infos := by
    intro done info rest hsplit
    rw [hsplit]
    exact List.mem_append_cons_self
  obtain ⟨hreturns, hadded⟩ := foldlM_tracks (Added c)
    (fun info => info.vote ≠ optionEmpty → info.delegatorShares ≠ 0) hstart
    (fun hsplit hadded => (hadded.validator (hvalid _ (hround hsplit))).1)
    (fun hsplit hadded => (hadded.validator (hvalid _ (hround hsplit))).2 _)
  refine ⟨hreturns.trans ?_, hadded⟩
  simp only [hmem]
  constructor
  · exact fun hall a v hv => hall _ ⟨a, v, hv, rfl⟩
  · rintro hall _ ⟨a, v, hv, rfl⟩
    exact hall a v hv

/-- When both loops return, and what they have counted. -/
theorem countVotes_spec {votes : List Vote} (hkeyed : staking.Keyed)
    (hvalid : ∀ vote ∈ votes, validVoteOption vote.option = true)
    (order : RangeOrder ValidatorGovInfo) :
    ((∃ r, countVotes order staking votes = .ok r) ↔ Tallyable staking votes) ∧
      ∀ c nonVoting, countVotes order staking votes = .ok (c, nonVoting) →
        (∀ option, validVoteOption option = true →
          c.result option = tallied staking votes fun o => o = option) ∧
        c.totalVotingPower = tallied staking votes hasVoted := by
  have hvoted := fun a => (mem_votes_iff hvalid a).1
  constructor
  · simp only [countVotes, bind_eq_ok]
    constructor
    · rintro ⟨r, validators, hvalidators, c, hfirst, hsecond⟩
      have hloop := Counted.votes hkeyed hvalidators hvalid
      have hcounted := hloop.2 c hfirst
      refine ⟨Stake.Store.iterateValidatorsBonded_returns_iff.mp ⟨_, hvalidators⟩,
        hloop.1.mp ⟨c, hfirst⟩, fun vote hvote v hv => ?_⟩
      refine (hcounted.secondLoop hvoted order).1.mp ⟨r, hsecond⟩ vote.voter v hv ?_
      exact (mem_votes_iff hvalid vote.voter).2.mpr (List.mem_map_of_mem hvote)
    · rintro ⟨hindexed, hdelegations, hshares⟩
      obtain ⟨validators, hvalidators⟩ :=
        Stake.Store.iterateValidatorsBonded_returns_iff.mpr hindexed
      have hloop := Counted.votes hkeyed hvalidators hvalid
      obtain ⟨c, hfirst⟩ := hloop.1.mpr hdelegations
      obtain ⟨r, hsecond⟩ := ((hloop.2 c hfirst).secondLoop hvoted order).1.mpr (by
        intro a v hv hne
        obtain ⟨vote, hvote, rfl⟩ := List.mem_map.mp ((mem_votes_iff hvalid a).2.mp hne)
        exact hshares vote hvote v hv)
      exact ⟨r, validators, hvalidators, c, hfirst, hsecond⟩
  · intro c nonVoting h
    simp only [countVotes, bind_eq_ok] at h
    obtain ⟨validators, hvalidators, before, hfirst, hsecond⟩ := h
    have hcounted := (Counted.votes hkeyed hvalidators hvalid).2 before hfirst
    have hadded := (hcounted.secondLoop hvoted order).2 _ hsecond
    have htotal : c.totalVotingPower = before.totalVotingPower + infoSum hasVoted _ := hadded.total
    constructor
    · intro option hoption
      have hresult : c.results[option]? = _ := hadded.results option
      rw [Count.result, hresult, if_pos hoption, Option.getD_some, hcounted.result hoption,
        hcounted.infoSum_eq order, tallied]
    · rw [htotal, hcounted.total, hcounted.infoSum_eq order, tallied]

/-! ## When `tally` returns -/

/-- The power behind the votes does not cancel out to nothing while the power behind abstentions does
not.  It takes a negative power or negative shares for that. -/
def Decisive (staking : Stake.Store) (votes : List Vote) : Prop :=
  tallied staking votes hasVoted = 0 → tallied staking votes (fun o => o = optionAbstain) = 0

instance (staking : Stake.Store) (votes : List Vote) : Decidable (Decisive staking votes) :=
  inferInstanceAs (Decidable (_ → _))

/-- The votes of a store are accepted ones: `AddVote` has stored each under its proposal and voter, with
one of the four options. -/
structure Store.VotesAccepted (s : Store) : Prop where
  keyed : s.VotesKeyed
  valid (key : ℤ ×ₗ Address) (vote : Vote) (h : s.votes[key]? = some vote) :
    validVoteOption vote.option = true

theorem Store.VotesAccepted.of_subset {s' : Store} (hs : s.VotesAccepted)
    (h : ∀ (key : ℤ ×ₗ Address) (vote : Vote), s'.votes[key]? = some vote →
      s.votes[key]? = some vote) : s'.VotesAccepted :=
  ⟨fun key vote hvote => hs.keyed key vote (h key vote hvote),
    fun key vote hvote => hs.valid key vote (h key vote hvote)⟩

theorem Store.VotesAccepted.setVote (hs : s.VotesAccepted) (proposalID : ℤ) (voter : Address)
    (hoption : validVoteOption option = true) :
    (s.setVote proposalID voter ⟨voter, proposalID, option⟩).VotesAccepted := by
  refine ⟨fun key vote hvote => ?_, fun key vote hvote => ?_⟩ <;>
    rw [Store.setVote, KVStore.getElem?_insert] at hvote <;> split_ifs at hvote with hkey
  · cases hvote
    exact hkey.symm
  · exact hs.keyed key vote hvote
  · cases hvote
    exact hoption
  · exact hs.valid key vote hvote

theorem Move.votesAccepted {height : ℤ} {s s' : State} (hs : s.store.VotesAccepted)
    (hmove : Move height s s') : s'.store.VotesAccepted := by
  cases hmove with
  | message hmove =>
    cases hmove with
    | deposit enough _ _ _ _ hput =>
      obtain ⟨deposit, rfl, -⟩ := putDeposit_eq_ok hput
      cases enough <;> exact hs.of_subset fun _ _ hvote => hvote
    | vote voter _ _ hoption => exact hs.setVote _ voter hoption
  | block hmove =>
    cases hmove with
    | drop | skip => exact hs.of_subset fun _ _ hvote => hvote
    | @decide front rest p accounts passes =>
      refine hs.of_subset fun key vote hvote => ?_
      rw [Store.decided, Store.deleteDeposits_eq] at hvote
      have hleft := (Store.getElem?_deleteVotes (s := { s.store with activeProposalQueue := rest })
        hs.keyed p.proposalID key).symm.trans hvote
      split_ifs at hleft
      exact hleft

theorem votesAccepted_of_run {height start : ℤ} {accounts : AccountStore}
    {history : List (Chain × Event)} {c : Chain}
    (hrun : Run step (newChain height start accounts) history c) : c.state.store.VotesAccepted := by
  have hmoves : ∀ {height s s'}, Moves height s s' → s.store.VotesAccepted →
      s'.store.VotesAccepted := by
    intro height s s' hmoves hs
    induction hmoves with
    | refl => exact hs
    | tail _ hmove ih => exact hmove.votesAccepted ih
  induction hrun with
  | nil => exact ⟨fun key vote h => by simp [newChain, emptyStore] at h,
      fun key vote h => by simp [newChain, emptyStore] at h⟩
  | snoc _ hstep ih =>
    obtain ⟨-, hstep⟩ := step_moves hstep
    split_ifs at hstep
    · obtain ⟨s₁, ⟨-, -, -, -⟩, hrest⟩ := hstep
      exact hmoves hrest (ih.of_subset fun _ _ hvote => hvote)
    · exact hmoves hstep ih

theorem Store.VotesAccepted.valid_of_mem (hs : s.VotesAccepted) {proposalID : ℤ} {vote : Vote}
    (h : vote ∈ s.getVotes proposalID) : validVoteOption vote.option = true := by
  obtain ⟨entry, hentry, rfl⟩ := List.mem_map.mp h
  exact hs.valid entry.1 entry.2 (KVStore.mem_toList.mp (List.mem_filter.mp hentry).1)

theorem verdict_returns_iff :
    (∃ passes, c.verdict = .ok passes) ↔ (c.totalVotingPower = 0 → c.result optionAbstain = 0) := by
  by_cases hnobody : c.totalVotingPower - c.result optionAbstain = 0
  · have habstain : c.result optionAbstain = c.totalVotingPower := (sub_eq_zero.mp hnobody).symm
    simp [Count.verdict, habstain, pure, Except.pure]
  · by_cases hzero : c.totalVotingPower = 0
    · have habstain : c.result optionAbstain ≠ 0 := by
        rintro h
        rw [h, hzero, sub_zero] at hnobody
        exact hnobody rfl
      simp [Count.verdict, hzero, habstain, quo, bind, Except.bind]
    · have hboth : ∀ x y : ℚ, quo x c.totalVotingPower = .ok (x / c.totalVotingPower) ∧
          quo y (c.totalVotingPower - c.result optionAbstain) =
            .ok (y / (c.totalVotingPower - c.result optionAbstain)) :=
        fun x y => ⟨quo_eq_ok.mpr ⟨hzero, rfl⟩, quo_eq_ok.mpr ⟨hnobody, rfl⟩⟩
      simp only [Count.verdict, hnobody, if_false, (hboth _ 0).1, (hboth 0 _).2, bind, Except.bind,
        hzero, false_imp_iff, iff_true]
      split_ifs
      · exact ⟨_, rfl⟩
      · exact ⟨_, rfl⟩

/-- `tally` returns exactly if the bonded index names stored validators, nobody who votes without owning
a bonded validator has a delegation to a validator that is not bonded or has no delegator shares, no
bonded validator without delegator shares votes, and powers do not cancel out. -/
theorem tally_returns_iff {staking : Stake.Store} {s : Store} (hkeyed : staking.Keyed)
    (haccepted : s.VotesAccepted) (order : RangeOrder ValidatorGovInfo) (proposal : TextProposal) :
    (∃ r, tally order staking s proposal = .ok r) ↔
      Tallyable staking (s.getVotes proposal.proposalID) ∧
        Decisive staking (s.getVotes proposal.proposalID) := by
  have hvalid : ∀ vote ∈ s.getVotes proposal.proposalID, validVoteOption vote.option = true :=
    fun vote hvote => haccepted.valid_of_mem hvote
  obtain ⟨hreturns, hcounted⟩ := countVotes_spec hkeyed hvalid order
  have hdecisive : ∀ {c nonVoting},
      countVotes order staking (s.getVotes proposal.proposalID) = .ok (c, nonVoting) →
        ((∃ passes, c.verdict = .ok passes) ↔
          Decisive staking (s.getVotes proposal.proposalID)) := by
    intro c nonVoting hcount
    obtain ⟨hresults, htotal⟩ := hcounted c nonVoting hcount
    rw [verdict_returns_iff, htotal, hresults optionAbstain (by decide), Decisive]
  simp only [tally, bind_eq_ok, pure_eq_ok, Prod.exists]
  constructor
  · rintro ⟨passes, nonVoting, s', c, nonVoting', hcount, passes', hverdict, -⟩
    exact ⟨hreturns.mp ⟨_, hcount⟩, (hdecisive hcount).mp ⟨_, hverdict⟩⟩
  · rintro ⟨htallyable, hnot⟩
    obtain ⟨⟨c, nonVoting⟩, hcount⟩ := hreturns.mpr htallyable
    obtain ⟨passes, hverdict⟩ := (hdecisive hcount).mpr hnot
    exact ⟨_, _, _, c, nonVoting, hcount, passes, hverdict, rfl⟩

/-! ## Two votes -/

/-- One place and two validators: account `[3]` delegates to the one that is not bonded and account `[4]`
to the bonded one. -/
def twoDelegators : List Stake.Op :=
  [Stake.Example.create 1 10, Stake.Example.create 2 5, Stake.Example.delegate 3 2 4,
    Stake.Example.delegate 4 1 6]

/-- A proposal and a vote on it. -/
def voteBy (voter : Address) : List Event :=
  [submitWith 1 [⟨"steak", 10⟩], .deliver 2 (.vote ⟨1, voter, optionYes⟩)]

/-- The proposal, in its voting period. -/
def firstProposal : TextProposal :=
  ⟨1, "title", "description", proposalTypeText, .votingPeriod, 1, [⟨"steak", 10⟩], 1⟩

theorem keyed_of_run {start st : Stake.State} {history : List (Stake.State × Stake.Op)}
    (hstart : start.store.WellFormed) (hrun : Run Stake.step start history st)
    (hrecent : Run.Meets (fun st op => op.Recent st.ctx) history) : st.store.Keyed :=
  (Run.invariant (fun st : Stake.State => st.store.WellFormed) hstart
    (fun hwell hrecent hstep => Stake.step_wellFormed hwell hrecent hstep) hrun hrecent).validators

/-- The vote of account `[4]` is counted. -/
theorem tally_returns_iff_bonded :
    ∃ st c, Run Stake.step (Stake.Example.genesis 1)
        (Run.historyOf Stake.step (Stake.Example.genesis 1) twoDelegators) st ∧
      Run step (newChain 0 1 proposerAccounts)
        (Run.historyOf step (newChain 0 1 proposerAccounts) (voteBy [4])) c ∧
      ∃ r, tally ascending st.store c.state.store firstProposal = .ok r := by
  obtain ⟨st, hst, htest⟩ := Run.of_leadsTo Stake.step (Stake.Example.genesis 1) twoDelegators
    (fun st => Run.leadsTo step (newChain 0 1 proposerAccounts) (voteBy [4]) fun c =>
      decide (Tallyable st.store (c.state.store.getVotes 1) ∧
        Decisive st.store (c.state.store.getVotes 1))) (by decide +kernel)
  obtain ⟨c, hc, htest⟩ := Run.of_leadsTo step _ _ _ htest
  refine ⟨st, c, hst, hc, ?_⟩
  have hkeyed := keyed_of_run (Stake.emptyStore_wellFormed _ _ _) hst (by decide +kernel)
  exact (tally_returns_iff hkeyed (votesAccepted_of_run hc) ascending firstProposal).mpr
    (of_decide_eq_true htest)

/-- The vote of account `[3]` stops the chain at the end of the voting period. -/
theorem tally_halts :
    ∃ st c, Run Stake.step (Stake.Example.genesis 1)
        (Run.historyOf Stake.step (Stake.Example.genesis 1) twoDelegators) st ∧
      Run step (newChain 0 1 proposerAccounts)
        (Run.historyOf step (newChain 0 1 proposerAccounts) (voteBy [3])) c ∧
      c.state.store.getProposal 1 = some firstProposal ∧
      tally ascending st.store c.state.store firstProposal = .error (.panic .nilDereference) ∧
      endBlocker 201 (fun _ => ascending) st.store c.state = .error (.panic .nilDereference) := by
  obtain ⟨st, hst, htest⟩ := Run.of_leadsTo Stake.step (Stake.Example.genesis 1) twoDelegators
    (fun st => Run.leadsTo step (newChain 0 1 proposerAccounts) (voteBy [3]) fun c =>
      decide (c.state.store.getProposal 1 = some firstProposal) &&
      failsWith (.panic .nilDereference) (tally ascending st.store c.state.store firstProposal) &&
      failsWith (.panic .nilDereference) (endBlocker 201 (fun _ => ascending) st.store c.state))
    (by decide +kernel)
  obtain ⟨c, hc, htest⟩ := Run.of_leadsTo step _ _ _ htest
  simp only [Bool.and_eq_true, decide_eq_true_eq] at htest
  exact ⟨st, c, hst, hc, htest.1.1, error_of_failsWith htest.1.2, error_of_failsWith htest.2⟩

end Tepleton.Gov
