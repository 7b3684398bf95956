import Tepleton.Gov.Keeper
import Tepleton.Stake.Keeper.Validator

/-!
# Counting votes: `x/gov/tally.go`

A vote of somebody who owns a bonded validator is kept for the second loop; any other voter's
delegations are counted at once, and the shares behind them are remembered as a `Minus` of their
validators.  The second loop gives each validator that has voted what is left of its power.

Maps that miss a key answer with a zero value.  The zero value of a `validatorGovInfo` has nil
rationals, and so has a missing result: calculating with either is a nil dereference.
-/

namespace Tepleton.Stake

open Lib

def Validator.getPower (v : Validator) : ℚ := v.poolShares.bonded

namespace Store

/-- The validators that `Keeper.IterateValidatorsBonded` hands to its function. -/
def iterateValidatorsBonded (s : Store) : Outcome (List Validator) :=
  (s.validatorsBonded.toList.map Prod.snd).mapM s.getIndexed

/-- The delegations that `Keeper.IterateDelegations` hands to its function. -/
def iterateDelegations (s : Store) (delAddr : Address) : List Delegation :=
  (s.delegations.toList.filter fun entry => (ofLex entry.1).1 = delAddr).map Prod.snd

end Store

end Tepleton.Stake

namespace Tepleton.Gov

open Lib Auth Bank

/-! ## Votes in the store -/

namespace Store

def getVotes (s : Store) (proposalID : ℤ) : List Vote :=
  (s.votes.toList.filter fun entry => (ofLex entry.1).1 = proposalID).map Prod.snd

def deleteVote (s : Store) (proposalID : ℤ) (voterAddr : Address) : Store :=
  { s with votes := s.votes.erase (toLex (proposalID, voterAddr)) }

end Store

/-! ## Counting -/

/-- `TallyingProcedure`, without the penalty, which nothing reads. -/
structure TallyingProcedure where
  threshold : ℚ
  veto : ℚ

def getTallyingProcedure : TallyingProcedure := ⟨1 / 2, 1 / 3⟩

structure ValidatorGovInfo where
  address : Address
  power : ℚ
  delegatorShares : ℚ
  minus : ℚ
  vote : VoteOption
  deriving DecidableEq, Repr

/-- The variables of `tally`. -/
structure Count where
  results : KVStore VoteOption ℚ
  totalVotingPower : ℚ
  currValidators : KVStore Address ValidatorGovInfo

/-- The entry that a bonded validator starts with. -/
def govInfo (v : Stake.Validator) : ValidatorGovInfo :=
  ⟨v.owner, v.getPower, v.delegatorShares, 0, optionEmpty⟩

/-- The results before the first vote. -/
def noResults : KVStore VoteOption ℚ :=
  ((((∅ : KVStore VoteOption ℚ).insert optionYes 0).insert optionAbstain 0).insert optionNo 0).insert
    optionNoWithVeto 0

/-- The variables before the first vote. -/
def startCount (validators : List Stake.Validator) : Count :=
  ⟨noResults, 0, validators.foldl (fun infos v => infos.insert v.owner (govInfo v)) ∅⟩

/-- Voting power is added to an option and to the total. -/
def Count.add (c : Count) (option : VoteOption) (votingPower : ℚ) : Outcome Count :=
  match c.results[option]? with
  | none => .error (.panic .nilDereference)
  | some result =>
    .ok { c with
      results := c.results.insert option (result + votingPower)
      totalVotingPower := c.totalVotingPower + votingPower }

/-- One delegation of a voter. -/
def countDelegation (option : VoteOption) (c : Count) (delegation : Stake.Delegation) :
    Outcome Count :=
  match c.currValidators[delegation.validatorAddr]? with
  | none => .error (.panic .nilDereference)
  | some val => do
      let val := { val with minus := val.minus + delegation.shares }
      let c := { c with currValidators := c.currValidators.insert delegation.validatorAddr val }
      let delegatorShare ← quo delegation.shares val.delegatorShares
      c.add option (val.power * delegatorShare)

/-- One vote. -/
def countVote (staking : Stake.Store) (c : Count) (vote : Vote) : Outcome Count :=
  match c.currValidators[vote.voter]? with
  | some val =>
    .ok { c with currValidators := c.currValidators.insert vote.voter { val with vote := vote.option } }
  | none => (staking.iterateDelegations vote.voter).foldlM (countDelegation vote.option) c

/-- One validator in the second loop, with the list of those that have not voted. -/
def countValidator (state : Count × List Address) (val : ValidatorGovInfo) :
    Outcome (Count × List Address) :=
  let (c, nonVoting) := state
  if val.vote = optionEmpty then return (c, nonVoting ++ [val.address])
  else do
    let sharesAfterMinus := val.delegatorShares - val.minus
    let percentAfterMinus ← quo sharesAfterMinus val.delegatorShares
    let c ← c.add val.vote (val.power * percentAfterMinus)
    return (c, nonVoting)

/-- What is counted for an option.  The entries of the four options are always there. -/
def Count.result (c : Count) (option : VoteOption) : ℚ := c.results[option]?.getD 0

/-- The end of `tally`: whether the proposal passes. -/
def Count.verdict (c : Count) : Outcome Bool :=
  let tallyingProcedure := getTallyingProcedure
  if c.totalVotingPower - c.result optionAbstain = 0 then return false
  else do
    let vetoed ← quo (c.result optionNoWithVeto) c.totalVotingPower
    if tallyingProcedure.veto < vetoed then return false
    else
      let approved ← quo (c.result optionYes) (c.totalVotingPower - c.result optionAbstain)
      return decide (tallyingProcedure.threshold < approved)

/-- The order in which `range` goes through a map, which Go leaves open. -/
structure RangeOrder (α : Type) where
  arrange : List α → List α
  perm (entries : List α) : (arrange entries).Perm entries

/-- Both loops of `tally`: the counts and those that have not voted. -/
def countVotes (order : RangeOrder ValidatorGovInfo) (staking : Stake.Store) (votes : List Vote) :
    Outcome (Count × List Address) := do
  let validators ← staking.iterateValidatorsBonded
  let c ← votes.foldlM (countVote staking) (startCount validators)
  (order.arrange (c.currValidators.toList.map Prod.snd)).foldlM countValidator (c, [])

/-- `tally`: whether the proposal passes, the validators that have not voted, and the store without
the votes that were counted. -/
def tally (order : RangeOrder ValidatorGovInfo) (staking : Stake.Store) (s : Store)
    (proposal : TextProposal) : Outcome (Bool × List Address × Store) := do
  let votes := s.getVotes proposal.proposalID
  let (c, nonVoting) ← countVotes order staking votes
  let passes ← c.verdict
  return (passes, nonVoting,
    votes.foldl (fun s vote => s.deleteVote vote.proposalID vote.voter) s)

end Tepleton.Gov
