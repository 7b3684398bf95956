import Tepleton.Bank.Send

/-!
# Governance messages: `x/gov/handler.go`, `x/gov/keeper.go`

A proposal collects deposits until there are enough of them to start its voting period; it can still
be added to after that, until it is decided.  The keys of proposals, deposits and votes are texts
with separators, which keep them apart, so the store has one field for each kind.
-/

namespace Tepleton.Gov

open Lib Auth Bank

/-! ## Proposals, deposits and votes: `proposals.go`, `depositsvotes.go` -/

abbrev ProposalKind := Byte

def proposalTypeText : ProposalKind := 1
def proposalTypeParameterChange : ProposalKind := 2
def proposalTypeSoftwareUpgrade : ProposalKind := 3

/-- `ProposalTypeToString`.  It counts from zero, the constants count from one. -/
def proposalTypeToString (proposalType : ProposalKind) : String :=
  if proposalType = 0 then "Text"
  else if proposalType = 1 then "ParameterChange"
  else if proposalType = 2 then "SoftwareUpgrade"
  else ""

def validProposalType (proposalType : ProposalKind) : Bool :=
  proposalType == proposalTypeText || proposalType == proposalTypeParameterChange ||
    proposalType == proposalTypeSoftwareUpgrade

inductive VoteStatus
  | depositPeriod
  | votingPeriod
  | passed
  | rejected
  deriving DecidableEq, Repr

structure TextProposal where
  proposalID : ℤ
  title : String
  description : String
  proposalType : ProposalKind
  status : VoteStatus
  submitBlock : ℤ
  totalDeposit : Coins
  votingStartBlock : ℤ
  deriving DecidableEq, Repr

abbrev VoteOption := Byte

def optionEmpty : VoteOption := 0
def optionYes : VoteOption := 1
def optionAbstain : VoteOption := 2
def optionNo : VoteOption := 3
def optionNoWithVeto : VoteOption := 4

def voteOptionToString (option : VoteOption) : String :=
  if option = optionYes then "Yes"
  else if option = optionAbstain then "Abstain"
  else if option = optionNo then "No"
  else if option = optionNoWithVeto then "NoWithVeto"
  else ""

def validVoteOption (option : VoteOption) : Bool :=
  option == optionYes || option == optionAbstain || option == optionNo || option == optionNoWithVeto

structure Vote where
  voter : Address
  proposalID : ℤ
  option : VoteOption
  deriving DecidableEq, Repr

structure Deposit where
  depositer : Address
  proposalID : ℤ
  amount : Coins
  deriving DecidableEq, Repr

structure DepositProcedure where
  minDeposit : Coins
  maxDepositPeriod : ℤ

/-! ## Errors: `errors.go` -/

def errUnknownProposal (proposalID : ℤ) : SdkError :=
  ⟨1, "Unknown proposal - " ++ toString proposalID⟩

def errInactiveProposal (proposalID : ℤ) : SdkError :=
  ⟨2, "Inactive proposal - " ++ toString proposalID⟩

def errAlreadyFinishedProposal (proposalID : ℤ) : SdkError :=
  ⟨4, "Proposal " ++ toString proposalID ++ " has already passed its voting period"⟩

def errInvalidTitle (title : String) : SdkError :=
  ⟨6, "Proposal Title '" ++ title ++ "' is not valid"⟩

def errInvalidDescription (description : String) : SdkError :=
  ⟨7, "Proposal Desciption '" ++ description ++ "' is not valid"⟩

def errInvalidProposalType (strProposalType : String) : SdkError :=
  ⟨8, "Proposal Type '" ++ strProposalType ++ "' is not valid"⟩

def errInvalidVote (strOption : String) : SdkError :=
  ⟨9, "'" ++ strOption ++ "' is not a valid voting option"⟩

/-! ## Messages: `msgs.go` -/

structure MsgSubmitProposal where
  title : String
  description : String
  proposalType : ProposalKind
  proposer : Address
  initialDeposit : Coins
  deriving DecidableEq, Repr

def MsgSubmitProposal.validateBasic (msg : MsgSubmitProposal) : Outcome Unit :=
  if msg.title = "" then throw (.error (errInvalidTitle msg.title))
  else if msg.description = "" then throw (.error (errInvalidDescription msg.description))
  else if ¬ validProposalType msg.proposalType then
    throw (.error (errInvalidProposalType (proposalTypeToString msg.proposalType)))
  else if msg.proposer = [] then throw (.error errInvalidAddress)
  else if ¬ msg.initialDeposit.isValid then
    throw (.error (errInvalidCoins (coinsString msg.initialDeposit)))
  else if ¬ msg.initialDeposit.isNotNegative then
    throw (.error (errInvalidCoins (coinsString msg.initialDeposit)))
  else return

def MsgSubmitProposal.getSigners (msg : MsgSubmitProposal) : List Address := [msg.proposer]

structure MsgDeposit where
  proposalID : ℤ
  depositer : Address
  amount : Coins
  deriving DecidableEq, Repr

def MsgDeposit.validateBasic (msg : MsgDeposit) : Outcome Unit :=
  if msg.depositer = [] then throw (.error errInvalidAddress)
  else if ¬ msg.amount.isValid then throw (.error (errInvalidCoins (coinsString msg.amount)))
  else if ¬ msg.amount.isNotNegative then
    throw (.error (errInvalidCoins (coinsString msg.amount)))
  else if msg.proposalID < 0 then throw (.error (errUnknownProposal msg.proposalID))
  else return

def MsgDeposit.getSigners (msg : MsgDeposit) : List Address := [msg.depositer]

structure MsgVote where
  proposalID : ℤ
  voter : Address
  option : VoteOption
  deriving DecidableEq, Repr

def MsgVote.validateBasic (msg : MsgVote) : Outcome Unit :=
  if msg.voter = [] then throw (.error errInvalidAddress)
  else if msg.proposalID < 0 then throw (.error (errUnknownProposal msg.proposalID))
  else if ¬ validVoteOption msg.option then
    throw (.error (errInvalidVote (voteOptionToString msg.option)))
  else return

def MsgVote.getSigners (msg : MsgVote) : List Address := [msg.voter]

/-! ## The store -/

instance transCmp_entry : Std.TransCmp (LinearOrder.toOrd (α := ℤ ×ₗ Address)).compare := inferInstance

/-- The governance store. -/
structure Store where
  nextProposalID : Option ℤ
  proposals : KVStore ℤ TextProposal
  deposits : KVStore (ℤ ×ₗ Address) Deposit
  votes : KVStore (ℤ ×ₗ Address) Vote
  activeProposalQueue : List ℤ
  inactiveProposalQueue : List ℤ

/-- A store without proposals, in which ids start from the one given at genesis. -/
def emptyStore (startingProposalID : ℤ) : Store :=
  ⟨some startingProposalID, ∅, ∅, ∅, [], []⟩

namespace Store

def getProposal (s : Store) (proposalID : ℤ) : Option TextProposal := s.proposals[proposalID]?

def setProposal (s : Store) (proposal : TextProposal) : Store :=
  { s with proposals := s.proposals.insert proposal.proposalID proposal }

def getNewProposalID (s : Store) : Store × Option ℤ :=
  match s.nextProposalID with
  | none => (s, none)
  | some proposalID => ({ s with nextProposalID := some (int64 (proposalID + 1)) }, some proposalID)

def inactiveProposalQueuePush (s : Store) (proposal : TextProposal) : Store :=
  { s with inactiveProposalQueue := s.inactiveProposalQueue ++ [proposal.proposalID] }

def activeProposalQueuePush (s : Store) (proposal : TextProposal) : Store :=
  { s with activeProposalQueue := s.activeProposalQueue ++ [proposal.proposalID] }

/-- `Keeper.NewTextProposal`.  Without a first id there is no proposal. -/
def newTextProposal (height : ℤ) (s : Store) (title description : String)
    (proposalType : ProposalKind) : Store × Option TextProposal :=
  match s.getNewProposalID with
  | (s, none) => (s, none)
  | (s, some proposalID) =>
    let proposal : TextProposal :=
      { proposalID, title, description, proposalType
        status := .depositPeriod
        totalDeposit := []
        submitBlock := height
        votingStartBlock := -1 }
    ((s.setProposal proposal).inactiveProposalQueuePush proposal, some proposal)

def activateVotingPeriod (height : ℤ) (s : Store) (proposal : TextProposal) : Store :=
  let proposal := { proposal with votingStartBlock := height, status := .votingPeriod }
  (s.setProposal proposal).activeProposalQueuePush proposal

def getDeposit (s : Store) (proposalID : ℤ) (depositerAddr : Address) : Option Deposit :=
  s.deposits[toLex (proposalID, depositerAddr)]?

def setDeposit (s : Store) (proposalID : ℤ) (depositerAddr : Address) (deposit : Deposit) : Store :=
  { s with deposits := s.deposits.insert (toLex (proposalID, depositerAddr)) deposit }

def setVote (s : Store) (proposalID : ℤ) (voterAddr : Address) (vote : Vote) : Store :=
  { s with votes := s.votes.insert (toLex (proposalID, voterAddr)) vote }

end Store

def getDepositProcedure : DepositProcedure := ⟨[⟨"steak", 10⟩], 200⟩

/-! ## The keeper -/

/-- The stores that the handler uses. -/
structure State where
  accounts : AccountStore
  store : Store

/-- The end of `AddDeposit`: the deposit is added to what the depositer has put down already. -/
def putDeposit (s : Store) (proposalID : ℤ) (depositerAddr : Address) (depositAmount : Coins) :
    Outcome Store :=
  match s.getDeposit proposalID depositerAddr with
  | none => return s.setDeposit proposalID depositerAddr ⟨depositerAddr, proposalID, depositAmount⟩
  | some currDeposit => do
      let amount ← currDeposit.amount.plus depositAmount
      return s.setDeposit proposalID depositerAddr { currDeposit with amount }

/-- `Keeper.AddDeposit`: the state and whether the voting period has been activated. -/
def addDeposit (height : ℤ) (s : State) (proposalID : ℤ) (depositerAddr : Address)
    (depositAmount : Coins) : Outcome (State × Bool) :=
  match s.store.getProposal proposalID with
  | none => .error (.error (errUnknownProposal proposalID))
  | some proposal =>
    if proposal.status ≠ .depositPeriod ∧ proposal.status ≠ .votingPeriod then
      .error (.error (errAlreadyFinishedProposal proposalID))
    else do
      let accounts ← subtractCoins s.accounts depositerAddr depositAmount
      let totalDeposit ← proposal.totalDeposit.plus depositAmount
      let proposal := { proposal with totalDeposit }
      let store := s.store.setProposal proposal
      let enough ← (if proposal.status = .depositPeriod then
        proposal.totalDeposit.isGTE getDepositProcedure.minDeposit else pure false : Outcome Bool)
      let store := if enough then store.activateVotingPeriod height proposal else store
      let store ← putDeposit store proposalID depositerAddr depositAmount
      return (⟨accounts, store⟩, enough)

def addVote (s : Store) (proposalID : ℤ) (voterAddr : Address) (option : VoteOption) :
    Outcome Store :=
  match s.getProposal proposalID with
  | none => .error (.error (errUnknownProposal proposalID))
  | some proposal =>
    if proposal.status ≠ .votingPeriod then .error (.error (errInactiveProposal proposalID))
    else if ¬ validVoteOption option then
      .error (.error (errInvalidVote (voteOptionToString option)))
    else .ok (s.setVote proposalID voterAddr ⟨voterAddr, proposalID, option⟩)

/-! ## Handling messages -/

def handleMsgSubmitProposal (height : ℤ) (s : State) (msg : MsgSubmitProposal) : Outcome State :=
  match s.store.newTextProposal height msg.title msg.description msg.proposalType with
  | (_, none) => .error (.panic .nilDereference)
  | (store, some proposal) => do
      let (s, _) ← addDeposit height { s with store } proposal.proposalID msg.proposer
        msg.initialDeposit
      return s

def handleMsgDeposit (height : ℤ) (s : State) (msg : MsgDeposit) : Outcome State := do
  let (s, _) ← addDeposit height s msg.proposalID msg.depositer msg.amount
  return s

def handleMsgVote (s : State) (msg : MsgVote) : Outcome State := do
  let store ← addVote s.store msg.proposalID msg.voter msg.option
  return { s with store }

/-- The messages of the module. -/
inductive Msg
  | submitProposal (msg : MsgSubmitProposal)
  | deposit (msg : MsgDeposit)
  | vote (msg : MsgVote)
  deriving DecidableEq, Repr

/-- `NewHandler`. -/
def handle (height : ℤ) (s : State) : Msg → Outcome State
  | .submitProposal msg => handleMsgSubmitProposal height s msg
  | .deposit msg => handleMsgDeposit height s msg
  | .vote msg => handleMsgVote s msg

end Tepleton.Gov
