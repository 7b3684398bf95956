import Tepleton.Gov.Tally

/-!
# The end of a block: `EndBlocker` in `x/gov/handler.go`

Proposals wait in two queues, and `EndBlocker` takes from the front of each as long as the proposal there
is due.  A proposal that moves on to its voting period stays in the inactive queue and is passed over
when it comes to the front.

A chain makes steps of two kinds: a message in a block of some height, or the end of a block.
-/

namespace Tepleton.Gov

open Lib Auth Bank

namespace Store

def deleteProposal (s : Store) (proposal : TextProposal) : Store :=
  { s with proposals := s.proposals.erase proposal.proposalID }

/-! ## Deposits -/

/-- `Keeper.GetDeposits`: keys and values under the prefix of a proposal. -/
def getDeposits (s : Store) (proposalID : ℤ) : List ((ℤ ×ₗ Address) × Deposit) :=
  s.deposits.toList.filter fun entry => (ofLex entry.1).1 = proposalID

/-- A deposit is deleted by its key. -/
def deleteDeposit (s : Store) (key : ℤ ×ₗ Address) : Store :=
  { s with deposits := s.deposits.erase key }

def deleteDeposits (s : Store) (proposalID : ℤ) : Store :=
  (s.getDeposits proposalID).foldl (fun s entry => s.deleteDeposit entry.1) s

/-! ## Queues -/

def inactiveProposalQueuePeek (s : Store) : Option TextProposal :=
  s.inactiveProposalQueue.head?.bind s.getProposal

def activeProposalQueuePeek (s : Store) : Option TextProposal :=
  s.activeProposalQueue.head?.bind s.getProposal

def inactiveProposalQueuePop (s : Store) : Store × Option TextProposal :=
  match s.inactiveProposalQueue with
  | [] => (s, none)
  | frontElement :: proposalQueue =>
    ({ s with inactiveProposalQueue := proposalQueue }, s.getProposal frontElement)

def activeProposalQueuePop (s : Store) : Store × Option TextProposal :=
  match s.activeProposalQueue with
  | [] => (s, none)
  | frontElement :: proposalQueue =>
    ({ s with activeProposalQueue := proposalQueue }, s.getProposal frontElement)

end Store

structure VotingProcedure where
  votingPeriod : ℤ

def getVotingProcedure : VotingProcedure := ⟨200⟩

/-- The deposit period of a proposal is over at this height. -/
def TextProposal.depositEnded (proposal : TextProposal) (height : ℤ) : Bool :=
  decide (int64 (proposal.submitBlock + getDepositProcedure.maxDepositPeriod) ≤ height)

/-- The voting period of a proposal is over at this height. -/
def TextProposal.votingEnded (proposal : TextProposal) (height : ℤ) : Bool :=
  decide (int64 (proposal.votingStartBlock + getVotingProcedure.votingPeriod) ≤ height)

def shouldPopInactiveProposalQueue (height : ℤ) (s : Store) : Bool :=
  match s.inactiveProposalQueuePeek with
  | none => false
  | some peekProposal =>
    if peekProposal.status ≠ .depositPeriod then true else peekProposal.depositEnded height

def shouldPopActiveProposalQueue (height : ℤ) (s : Store) : Bool :=
  match s.activeProposalQueuePeek with
  | none => false
  | some peekProposal => peekProposal.votingEnded height

/-! ## Refunds -/

/-- One deposit is given back and deleted.  `AddCoins` is not expected to fail. -/
def refundDeposit (s : State) (entry : (ℤ ×ₗ Address) × Deposit) : Outcome State :=
  match addCoins s.accounts entry.2.depositer entry.2.amount with
  | .ok accounts => .ok ⟨accounts, s.store.deleteDeposit entry.1⟩
  | .error (.error _) => .error (.panic .shouldNotHappen)
  | .error (.panic reason) => .error (.panic reason)

def refundDeposits (s : State) (proposalID : ℤ) : Outcome State :=
  (s.store.getDeposits proposalID).foldlM refundDeposit s

/-! ## EndBlocker -/

/-- The tags of `EndBlocker`: an action with the id of a proposal. -/
inductive Tag
  | proposalDropped (proposalID : ℤ)
  | proposalPassed (proposalID : ℤ)
  | proposalRejected (proposalID : ℤ)
  deriving DecidableEq, Repr

/-- The variables of `EndBlocker`. -/
structure BlockEnd where
  state : State
  tags : List Tag
  nonVotingVals : List Address

/-- The body of the first loop: a proposal that has not met the minimal deposit is deleted. -/
def dropInactive (e : BlockEnd) : Outcome BlockEnd :=
  match e.state.store.inactiveProposalQueuePop with
  | (_, none) => .error (.panic .nilDereference)
  | (store, some inactiveProposal) =>
    if inactiveProposal.status = .depositPeriod then
      return { e with
        state := { e.state with store := store.deleteProposal inactiveProposal }
        tags := e.tags ++ [.proposalDropped inactiveProposal.proposalID] }
    else return { e with state := { e.state with store } }

/-- The votes on a proposal are tallied and its deposits given back or kept. -/
def decideProposal (order : RangeOrder ValidatorGovInfo) (staking : Stake.Store) (e : BlockEnd)
    (activeProposal : TextProposal) : Outcome BlockEnd := do
  let proposalID := activeProposal.proposalID
  let (passes, nonVotingVals, store) ← tally order staking e.state.store activeProposal
  let state := { e.state with store }
  if passes then
    let state ← refundDeposits state proposalID
    let store := state.store.setProposal { activeProposal with status := .passed }
    return ⟨{ state with store }, e.tags ++ [.proposalPassed proposalID], nonVotingVals⟩
  else
    let store := (state.store.deleteDeposits proposalID).setProposal
      { activeProposal with status := .rejected }
    return ⟨{ state with store }, e.tags ++ [.proposalRejected proposalID], nonVotingVals⟩

/-- The body of the second loop. -/
def finishActive (height : ℤ) (order : ℤ → RangeOrder ValidatorGovInfo) (staking : Stake.Store)
    (e : BlockEnd) : Outcome BlockEnd :=
  match e.state.store.activeProposalQueuePop with
  | (_, none) => .error (.panic .nilDereference)
  | (store, some activeProposal) =>
    let e := { e with state := { e.state with store } }
    if activeProposal.votingEnded height then
      decideProposal (order activeProposal.proposalID) staking e activeProposal
    else return e

/-- `EndBlocker`.  Each round takes one proposal from its queue and none adds one, so there are no more
rounds than proposals in it. -/
def endBlocker (height : ℤ) (order : ℤ → RangeOrder ValidatorGovInfo) (staking : Stake.Store)
    (s : State) : Outcome BlockEnd := do
  let e ← loopWhile (fun e => shouldPopInactiveProposalQueue height e.state.store) dropInactive
    s.store.inactiveProposalQueue.length ⟨s, [], []⟩
  loopWhile (fun e => shouldPopActiveProposalQueue height e.state.store)
    (finishActive height order staking) e.state.store.activeProposalQueue.length e

/-! ## Steps -/

def Msg.validateBasic : Msg → Outcome Unit
  | .submitProposal msg => msg.validateBasic
  | .deposit msg => msg.validateBasic
  | .vote msg => msg.validateBasic

/-- The height of the last block and the state. -/
structure Chain where
  height : ℤ
  state : State

/-- What can happen in a block: a message, or its end, at which the votes are counted by what is staked
and maps are gone through in some order. -/
inductive Event
  | deliver (height : ℤ) (msg : Msg)
  | endBlock (height : ℤ) (staking : Stake.Store) (order : ℤ → RangeOrder ValidatorGovInfo)

/-- The height of the block of an event. -/
def Event.height : Event → ℤ
  | .deliver height _ => height
  | .endBlock height _ _ => height

/-- The event is the submission of a proposal. -/
def Event.submits : Event → Bool
  | .deliver _ (.submitProposal _) => true
  | _ => false

/-- One step. -/
def step (c : Chain) : Event → Outcome Chain
  | .deliver height msg => do
      msg.validateBasic
      let state ← handle height c.state msg
      return ⟨height, state⟩
  | .endBlock height staking order => do
      let e ← endBlocker height order staking c.state
      return ⟨height, e.state⟩

/-- Heights do not decrease, and they are `int64`. -/
def Event.Timely (c : Chain) (event : Event) : Prop :=
  c.height ≤ event.height ∧ -2 ^ 63 ≤ event.height ∧ event.height < 2 ^ 63

instance (c : Chain) (event : Event) : Decidable (event.Timely c) :=
  inferInstanceAs (Decidable (_ ∧ _ ∧ _))

end Tepleton.Gov
