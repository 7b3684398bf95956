import Tepleton.Gov.EndBlocker

/-!
# What governance can do to its store

Every message and every end of a block is a sequence of a few moves: a deposit, which may start the
voting period, a vote, a proposal dropped from the inactive queue or passed over there, and a proposal
decided.  Only the submission of a proposal adds one.  `step_moves` says so once, and invariants are
proved move by move.
-/

namespace Tepleton.Gov

open Lib Auth Bank

/-! ## The parts of `tally` and `RefundDeposits` that concern the store -/

namespace Store

/-- The store after the votes on a proposal were counted. -/
def deleteVotes (s : Store) (proposalID : ℤ) : Store :=
  (s.getVotes proposalID).foldl (fun s vote => s.deleteVote vote.proposalID vote.voter) s

theorem deleteVotes_eq (s : Store) (proposalID : ℤ) :
    s.deleteVotes proposalID = { s with votes := (s.deleteVotes proposalID).votes } := by
  rw [deleteVotes]
  generalize s.getVotes proposalID = votes
  induction votes generalizing s with
  | nil => rfl
  | cons vote votes ih =>
    rw [List.foldl_cons, ih]
    rfl

theorem deleteDeposits_eq (s : Store) (proposalID : ℤ) :
    s.deleteDeposits proposalID = { s with deposits := (s.deleteDeposits proposalID).deposits } := by
  rw [deleteDeposits]
  generalize s.getDeposits proposalID = entries
  induction entries generalizing s with
  | nil => rfl
  | cons entry entries ih =>
    rw [List.foldl_cons, ih]
    rfl

theorem getElem?_deleteDeposits (s : Store) (proposalID : ℤ) (key : ℤ ×ₗ Address) :
    (s.deleteDeposits proposalID).deposits[key]? =
      if (ofLex key).1 = proposalID then none else s.deposits[key]? := by
  have hfold : ∀ (entries : List ((ℤ ×ₗ Address) × Deposit)) (s : Store),
      (entries.foldl (fun s entry => s.deleteDeposit entry.1) s).deposits =
        entries.foldl (fun t entry => t.erase entry.1) s.deposits := by
    intro entries
    induction entries with
    | nil => intro s; rfl
    | cons entry entries ih => intro s; rw [List.foldl_cons, List.foldl_cons, ih]; rfl
  rw [deleteDeposits, hfold, getDeposits,
    KVStore.getElem?_foldl_erase_filter s.deposits (fun key => decide ((ofLex key).1 = proposalID))]
  simp only [decide_eq_true_eq]

/-- Votes are stored under the proposal and the voter they name. -/
def VotesKeyed (s : Store) : Prop :=
  ∀ (key : ℤ ×ₗ Address) (vote : Vote), s.votes[key]? = some vote →
    key = toLex (vote.proposalID, vote.voter)

/-- All votes on the proposal are gone, and no other. -/
theorem getElem?_deleteVotes {s : Store} (hkeyed : s.VotesKeyed) (proposalID : ℤ)
    (key : ℤ ×ₗ Address) :
    (s.deleteVotes proposalID).votes[key]? =
      if (ofLex key).1 = proposalID then none else s.votes[key]? := by
  have hfold : ∀ (votes : List Vote) (s : Store),
      (votes.foldl (fun s vote => s.deleteVote vote.proposalID vote.voter) s).votes =
        (votes.map fun vote => toLex (vote.proposalID, vote.voter)).foldl
          (fun t key => t.erase key) s.votes := by
    intro votes
    induction votes with
    | nil => intro s; rfl
    | cons vote votes ih => intro s; rw [List.foldl_cons, List.map_cons, List.foldl_cons, ih]; rfl
  -- a vote of the list names the key it is stored under
  have hkeys : (s.getVotes proposalID).map (fun vote => toLex (vote.proposalID, vote.voter)) =
      (s.votes.toList.filter fun entry => decide ((ofLex entry.1).1 = proposalID)).map Prod.fst := by
    rw [getVotes, List.map_map]
    refine List.map_congr_left fun entry hentry => ?_
    exact (hkeyed entry.1 entry.2 (KVStore.mem_toList.mp (List.mem_filter.mp hentry).1)).symm
  rw [deleteVotes, hfold, hkeys, List.foldl_map,
    KVStore.getElem?_foldl_erase_filter s.votes (fun key => decide ((ofLex key).1 = proposalID))]
  simp only [decide_eq_true_eq]

end Store

variable {staking : Stake.Store} {e e' : BlockEnd} {order : ℤ → RangeOrder ValidatorGovInfo}

theorem tally_eq_ok {order : RangeOrder ValidatorGovInfo} {s s' : Store} {proposal : TextProposal}
    {passes : Bool} {nonVoting : List Address}
    (h : tally order staking s proposal = .ok (passes, nonVoting, s')) :
    s' = s.deleteVotes proposal.proposalID := by
  simp only [tally, bind_eq_ok, pure_eq_ok, Prod.mk.injEq, Prod.exists] at h
  obtain ⟨c, nonVoting', -, passes', -, -, -, rfl⟩ := h
  rfl

/-- What a stored deposit is worth to its depositer. -/
def refundOf (entry : (ℤ ×ₗ Address) × Deposit) : Output := ⟨entry.2.depositer, entry.2.amount⟩

/-- Deposits are paid back one after the other. -/
def payBack (am : AccountStore) (entries : List ((ℤ ×ₗ Address) × Deposit)) : Outcome AccountStore :=
  (entries.map refundOf).foldlM (fun am output => addCoins am output.address output.coins) am

theorem moved_of_payBack {am am' : AccountStore} {entries : List ((ℤ ×ₗ Address) × Deposit)}
    (h : payBack am entries = .ok am') : Moved given (entries.map refundOf) am am' :=
  moved_of_foldlM (fun hstep => moved_of_addCoins hstep) h

theorem refundDeposits_eq_ok {s s' : State} {proposalID : ℤ}
    (h : refundDeposits s proposalID = .ok s') :
    payBack s.accounts (s.store.getDeposits proposalID) = .ok s'.accounts ∧
      s'.store = s.store.deleteDeposits proposalID := by
  rw [refundDeposits] at h
  rw [Store.deleteDeposits, payBack]
  generalize s.store.getDeposits proposalID = entries at h ⊢
  induction entries generalizing s with
  | nil =>
    cases h
    exact ⟨rfl, rfl⟩
  | cons entry entries ih =>
    rw [List.foldlM_cons, bind_eq_ok] at h
    obtain ⟨s₁, hfirst, h⟩ := h
    rw [refundDeposit] at hfirst
    split at hfirst
    · rename_i accounts hadd
      cases hfirst
      rw [List.map_cons, List.foldlM_cons, List.foldl_cons, bind_eq_ok]
      obtain ⟨hrest, hlast⟩ := ih h
      exact ⟨⟨accounts, hadd, hrest⟩, hlast⟩
    · cases hfirst
    · cases hfirst

theorem putDeposit_eq_ok {s s' : Store} {id : ℤ} {addr : Address} {amount : Coins}
    (h : putDeposit s id addr amount = .ok s') :
    ∃ deposit, s' = s.setDeposit id addr deposit ∧
      match s.getDeposit id addr with
      | none => deposit = ⟨addr, id, amount⟩
      | some old => ∃ total, old.amount.plus amount = .ok total ∧
          deposit = { old with amount := total } := by
  rw [putDeposit] at h
  cases hold : s.getDeposit id addr with
  | none =>
    simp only [hold, pure_eq_ok] at h
    exact ⟨_, h.symm, rfl⟩
  | some old =>
    simp only [hold, bind_eq_ok, pure_eq_ok] at h
    obtain ⟨total, htotal, rfl⟩ := h
    exact ⟨_, rfl, total, htotal, rfl⟩

/-! ## Moves -/

/-- The store after a proposal was decided. -/
def Store.decided (s : Store) (proposal : TextProposal) (passes : Bool) : Store :=
  ((s.deleteVotes proposal.proposalID).deleteDeposits proposal.proposalID).setProposal
    { proposal with status := if passes then .passed else .rejected }

/-- The coins that a message deposits. -/
def Msg.coins : Msg → Coins
  | .submitProposal msg => msg.initialDeposit
  | .deposit msg => msg.amount
  | .vote _ => []

/-- What a message with some coins does at some height, apart from adding a proposal. -/
inductive MessageMove (height : ℤ) (coins : Coins) : State → State → Prop
  | deposit {s : State} {id : ℤ} {p : TextProposal} {addr : Address} {total : Coins}
      {accounts : AccountStore} {store : Store} (enough : Bool) (hp : s.store.getProposal id = some p)
      (hopen : p.status = .depositPeriod ∨ p.status = .votingPeriod)
      (haccounts : subtractCoins s.accounts addr coins = .ok accounts)
      (htotal : p.totalDeposit.plus coins = .ok total)
      (hput : putDeposit (s.store.setProposal { p with totalDeposit := total }) id addr coins =
        .ok store)
      (henough : enough = true → p.status = .depositPeriod) :
      MessageMove height coins s ⟨accounts,
        if enough then store.activateVotingPeriod height { p with totalDeposit := total } else store⟩
  | vote {s : State} {id : ℤ} {p : TextProposal} (voter : Address) {option : VoteOption}
      (hp : s.store.getProposal id = some p) (hstatus : p.status = .votingPeriod)
      (hoption : validVoteOption option = true) :
      MessageMove height coins s { s with store := s.store.setVote id voter ⟨voter, id, option⟩ }

/-- What a round of `EndBlocker` does at some height. -/
inductive BlockMove (height : ℤ) : State → State → Prop
  | drop {s : State} {front : ℤ} {rest : List ℤ} {p : TextProposal}
      (hqueue : s.store.inactiveProposalQueue = front :: rest)
      (hp : s.store.getProposal front = some p) (hstatus : p.status = .depositPeriod)
      (hended : p.depositEnded height = true) :
      BlockMove height s
        { s with store := { s.store with inactiveProposalQueue := rest }.deleteProposal p }
  | skip {s : State} {front : ℤ} {rest : List ℤ} {p : TextProposal}
      (hqueue : s.store.inactiveProposalQueue = front :: rest)
      (hp : s.store.getProposal front = some p) (hstatus : p.status ≠ .depositPeriod) :
      BlockMove height s { s with store := { s.store with inactiveProposalQueue := rest } }
  | decide {s : State} {front : ℤ} {rest : List ℤ} {p : TextProposal} {accounts : AccountStore}
      (passes : Bool) (hqueue : s.store.activeProposalQueue = front :: rest)
      (hp : s.store.getProposal front = some p) (hended : p.votingEnded height = true)
      (hrefund : if passes then payBack s.accounts (s.store.getDeposits p.proposalID) = .ok accounts
        else accounts = s.accounts) :
      BlockMove height s ⟨accounts, { s.store with activeProposalQueue := rest }.decided p passes⟩

/-- What can happen to the state at some height, apart from the submission of a proposal. -/
inductive Move (height : ℤ) (s s' : State) : Prop
  | message {coins : Coins} (h : MessageMove height coins s s')
  | block (h : BlockMove height s s')

/-- A sequence of rounds of `EndBlocker`. -/
abbrev BlockMoves (height : ℤ) : State → State → Prop := Relation.ReflTransGen (BlockMove height)

/-- A sequence of moves. -/
abbrev Moves (height : ℤ) : State → State → Prop := Relation.ReflTransGen (Move height)

/-- The submission of a proposal, before its first deposit. -/
inductive Proposed (height : ℤ) : State → State → Prop
  | intro {s : State} {p : TextProposal} (hnext : s.store.nextProposalID = some p.proposalID)
      (hstatus : p.status = .depositPeriod) (htotal : p.totalDeposit = [])
      (hsubmit : p.submitBlock = height) :
      Proposed height s { s with store :=
        ({ s.store with nextProposalID := some (int64 (p.proposalID + 1)) }.setProposal
          p).inactiveProposalQueuePush p }

variable {height : ℤ} {s s' : State}

theorem putDeposit_activateVotingPeriod (s : Store) (p : TextProposal) (id : ℤ) (addr : Address)
    (amount : Coins) :
    putDeposit (s.activateVotingPeriod height p) id addr amount =
      (putDeposit s id addr amount).map fun s => s.activateVotingPeriod height p := by
  have hsame : (s.activateVotingPeriod height p).getDeposit id addr = s.getDeposit id addr := rfl
  rw [putDeposit, putDeposit, hsame]
  cases s.getDeposit id addr with
  | none => rfl
  | some currDeposit =>
    cases hamount : currDeposit.amount.plus amount with
    | error fault => simp only [hamount]; rfl
    | ok total => simp only [hamount]; rfl

theorem addDeposit_move {id : ℤ} {addr : Address} {amount : Coins} {activated : Bool}
    (h : addDeposit height s id addr amount = .ok (s', activated)) :
    MessageMove height amount s s' := by
  unfold addDeposit at h
  split at h
  · cases h
  · rename_i p hp
    split_ifs at h with hopen
    simp only [bind_eq_ok, pure_eq_ok, Prod.mk.injEq] at h
    obtain ⟨accounts, haccounts, total, htotal, enough, henough, store, hput, rfl, -⟩ := h
    have hstatus : enough = true → p.status = .depositPeriod := by
      rintro rfl
      by_contra hne
      rw [if_neg hne] at henough
      cases henough
    have hopen : p.status = .depositPeriod ∨ p.status = .votingPeriod := by tauto
    cases enough with
    | false => exact .deposit false hp hopen haccounts htotal hput hstatus
    | true =>
      rw [if_pos rfl, putDeposit_activateVotingPeriod] at hput
      cases hbefore : putDeposit (s.store.setProposal { p with totalDeposit := total }) id addr
          amount with
      | error fault =>
        rw [hbefore] at hput
        cases hput
      | ok before =>
        rw [hbefore] at hput
        cases hput
        exact .deposit true hp hopen haccounts htotal hbefore hstatus

/-- A message makes one move, after its proposal was added if it submits one. -/
theorem handle_moves {msg : Msg} (h : handle height s msg = .ok s') :
    if (Event.deliver height msg).submits then
      ∃ s₁, Proposed height s s₁ ∧ MessageMove height msg.coins s₁ s'
    else MessageMove height msg.coins s s' := by
  cases msg with
  | submitProposal msg =>
    rw [handle, handleMsgSubmitProposal, Store.newTextProposal, Store.getNewProposalID] at h
    cases hnext : s.store.nextProposalID with
    | none =>
      simp only [hnext] at h
      cases h
    | some id =>
      simp only [hnext, bind_eq_ok, pure_eq_ok, Prod.exists] at h
      obtain ⟨s₁, activated, hdeposit, rfl⟩ := h
      let p : TextProposal :=
        ⟨id, msg.title, msg.description, msg.proposalType, .depositPeriod, height, [], -1⟩
      exact ⟨_, .intro (p := p) hnext rfl rfl rfl, addDeposit_move hdeposit⟩
  | deposit msg =>
    simp only [handle, handleMsgDeposit, bind_eq_ok, pure_eq_ok, Prod.exists] at h
    obtain ⟨s₁, activated, hdeposit, rfl⟩ := h
    exact addDeposit_move hdeposit
  | vote msg =>
    simp only [handle, handleMsgVote, bind_eq_ok, pure_eq_ok] at h
    obtain ⟨store, hvote, rfl⟩ := h
    unfold addVote at hvote
    split at hvote
    · cases hvote
    · rename_i p hp
      split_ifs at hvote with hstatus hoption
      cases hvote
      exact .vote _ hp (by simpa using hstatus) (by simpa using hoption)

theorem handle_onlyCoins {msg : Msg} (h : handle height s msg = .ok s') :
    OnlyCoins s.accounts s'.accounts := by
  have hmove : ∀ {s coins}, MessageMove height coins s s' → OnlyCoins s.accounts s'.accounts := by
    intro s coins hmove
    cases hmove with
    | deposit _ _ _ haccounts => exact .subtractCoins haccounts
    | vote => exact .refl _
  have hmoves := handle_moves h
  split_ifs at hmoves
  · obtain ⟨s₁, ⟨-, -, -, -⟩, hmoves⟩ := hmoves
    have hcoins := hmove hmoves
    exact hcoins
  · exact hmove hmoves

/-! ## The end of a block -/

/-- A round of the first loop takes the proposal at the front of the inactive queue. -/
theorem dropInactive_eq_ok (h : dropInactive e = .ok e') :
    ∃ front rest p, e.state.store.inactiveProposalQueue = front :: rest ∧
      e.state.store.getProposal front = some p ∧
      e'.state = { e.state with store :=
        if p.status = .depositPeriod then
          { e.state.store with inactiveProposalQueue := rest }.deleteProposal p
        else { e.state.store with inactiveProposalQueue := rest } } := by
  rw [dropInactive, Store.inactiveProposalQueuePop] at h
  cases hqueue : e.state.store.inactiveProposalQueue with
  | nil =>
    simp only [hqueue] at h
    cases h
  | cons front rest =>
    simp only [hqueue] at h
    cases hp : e.state.store.getProposal front with
    | none =>
      simp only [hp] at h
      cases h
    | some p =>
      simp only [hp] at h
      refine ⟨front, rest, p, rfl, hp, ?_⟩
      split_ifs at h ⊢ <;> cases h <;> rfl

theorem dropInactive_move (htest : shouldPopInactiveProposalQueue height e.state.store = true)
    (h : dropInactive e = .ok e') : BlockMove height e.state e'.state := by
  obtain ⟨front, rest, p, hqueue, hp, hstate⟩ := dropInactive_eq_ok h
  rw [shouldPopInactiveProposalQueue, Store.inactiveProposalQueuePeek, hqueue, List.head?_cons,
    Option.bind_some, hp] at htest
  rw [hstate]
  split_ifs with hstatus
  · simp only [hstatus, ne_eq, not_true_eq_false, if_false] at htest
    exact .drop hqueue hp hstatus htest
  · exact .skip hqueue hp hstatus

/-- The tag of a decision. -/
def decisionTag (p : TextProposal) (passes : Bool) : Tag :=
  if passes then .proposalPassed p.proposalID else .proposalRejected p.proposalID

theorem decideProposal_eq_ok {order : RangeOrder ValidatorGovInfo} {p : TextProposal}
    (h : decideProposal order staking e p = .ok e') :
    ∃ passes, e'.tags = e.tags ++ [decisionTag p passes] ∧
      e'.state.store = e.state.store.decided p passes ∧
      if passes then payBack e.state.accounts (e.state.store.getDeposits p.proposalID) =
        .ok e'.state.accounts
      else e'.state.accounts = e.state.accounts := by
  simp only [decideProposal, bind_eq_ok, Prod.exists] at h
  obtain ⟨passes, nonVoting, store, htally, h⟩ := h
  obtain rfl := tally_eq_ok htally
  have hdeposits : (e.state.store.deleteVotes p.proposalID).getDeposits p.proposalID =
      e.state.store.getDeposits p.proposalID := by
    rw [Store.deleteVotes_eq]
    rfl
  split_ifs at h with hpasses
  · rw [bind_eq_ok] at h
    obtain ⟨state, hrefund, h⟩ := h
    cases h
    obtain ⟨hpaid, hstore⟩ := refundDeposits_eq_ok hrefund
    refine ⟨true, rfl, ?_, ?_⟩
    · simp only [hstore]
      rfl
    · rw [if_pos rfl, ← hdeposits]
      exact hpaid
  · cases h
    exact ⟨false, rfl, rfl, rfl⟩

/-- A round of the second loop decides the proposal at the front of the active queue. -/
theorem finishActive_eq_ok (htest : shouldPopActiveProposalQueue height e.state.store = true)
    (h : finishActive height order staking e = .ok e') :
    ∃ front rest p passes, e.state.store.activeProposalQueue = front :: rest ∧
      e.state.store.getProposal front = some p ∧ p.votingEnded height = true ∧
      e'.tags = e.tags ++ [decisionTag p passes] ∧
      e'.state.store = { e.state.store with activeProposalQueue := rest }.decided p passes ∧
      if passes then payBack e.state.accounts (e.state.store.getDeposits p.proposalID) =
        .ok e'.state.accounts
      else e'.state.accounts = e.state.accounts := by
  rw [shouldPopActiveProposalQueue, Store.activeProposalQueuePeek] at htest
  rw [finishActive, Store.activeProposalQueuePop] at h
  cases hqueue : e.state.store.activeProposalQueue with
  | nil =>
    simp only [hqueue] at h
    cases h
  | cons front rest =>
    simp only [hqueue, List.head?_cons, Option.bind_some] at htest h
    cases hp : e.state.store.getProposal front with
    | none =>
      simp only [hp] at h
      cases h
    | some p =>
      simp only [hp] at htest h
      rw [if_pos htest] at h
      obtain ⟨passes, htags, hstore, haccounts⟩ := decideProposal_eq_ok h
      exact ⟨front, rest, p, passes, rfl, hp, htest, htags, hstore, haccounts⟩

theorem finishActive_move (htest : shouldPopActiveProposalQueue height e.state.store = true)
    (h : finishActive height order staking e = .ok e') : BlockMove height e.state e'.state := by
  obtain ⟨front, rest, p, passes, hqueue, hp, hended, -, hstore, haccounts⟩ :=
    finishActive_eq_ok htest h
  have hmove := BlockMove.decide passes hqueue hp hended haccounts
  rwa [← hstore] at hmove

theorem length_lt_of_dropInactive (h : dropInactive e = .ok e') :
    e'.state.store.inactiveProposalQueue.length < e.state.store.inactiveProposalQueue.length := by
  obtain ⟨front, rest, p, hqueue, -, hstate⟩ := dropInactive_eq_ok h
  rw [hstate, hqueue]
  split_ifs <;> exact Nat.lt_succ_self _

theorem length_lt_of_finishActive (htest : shouldPopActiveProposalQueue height e.state.store = true)
    (h : finishActive height order staking e = .ok e') :
    e'.state.store.activeProposalQueue.length < e.state.store.activeProposalQueue.length := by
  obtain ⟨front, rest, p, passes, hqueue, -, -, -, hstore, -⟩ := finishActive_eq_ok htest h
  rw [hstore, hqueue, Store.decided, Store.deleteDeposits_eq, Store.deleteVotes_eq]
  exact Nat.lt_succ_self _

/-- The induction over both loops of `EndBlocker`.  The first ends when the front of the inactive queue
is not due, the second when the front of the active queue is not. -/
theorem endBlocker_spec (First Second : BlockEnd → Prop) (hstart : First ⟨s, [], []⟩)
    (hdrop : ∀ {e e'}, First e → shouldPopInactiveProposalQueue height e.state.store = true →
      dropInactive e = .ok e' → First e')
    (hbetween : ∀ {e}, First e → shouldPopInactiveProposalQueue height e.state.store = false → Second e)
    (hfinish : ∀ {e e'}, Second e → shouldPopActiveProposalQueue height e.state.store = true →
      finishActive height order staking e = .ok e' → Second e')
    (h : endBlocker height order staking s = .ok e) :
    Second e ∧ shouldPopActiveProposalQueue height e.state.store = false := by
  rw [endBlocker, bind_eq_ok] at h
  obtain ⟨middle, hfirst, hsecond⟩ := h
  have hmiddle := loopWhile_spec First (fun e => e.state.store.inactiveProposalQueue.length)
    (fun {e} _ htest => List.length_pos_iff.mpr fun hnil => by
      simp [shouldPopInactiveProposalQueue, Store.inactiveProposalQueuePeek, hnil] at htest)
    (fun hinv htest hbody => ⟨hdrop hinv htest hbody, length_lt_of_dropInactive hbody⟩)
    hstart le_rfl hfirst
  exact loopWhile_spec Second (fun e => e.state.store.activeProposalQueue.length)
    (fun {e} _ htest => List.length_pos_iff.mpr fun hnil => by
      simp [shouldPopActiveProposalQueue, Store.activeProposalQueuePeek, hnil] at htest)
    (fun hinv htest hbody => ⟨hfinish hinv htest hbody, length_lt_of_finishActive htest hbody⟩)
    (hbetween hmiddle.1 hmiddle.2) le_rfl hsecond

theorem endBlocker_moves (h : endBlocker height order staking s = .ok e) :
    ∃ middle, BlockMoves height s middle ∧
      shouldPopInactiveProposalQueue height middle.store = false ∧ BlockMoves height middle e.state ∧
      shouldPopActiveProposalQueue height e.state.store = false := by
  have hspec := endBlocker_spec (fun e => BlockMoves height s e.state)
    (fun e => ∃ middle, BlockMoves height s middle ∧
      shouldPopInactiveProposalQueue height middle.store = false ∧ BlockMoves height middle e.state)
    .refl (fun hmoves htest hbody => hmoves.tail (dropInactive_move htest hbody))
    (fun {e} hmoves htest => ⟨e.state, hmoves, htest, .refl⟩)
    (fun ⟨middle, hbefore, htest, hmoves⟩ htest' hbody =>
      ⟨middle, hbefore, htest, hmoves.tail (finishActive_move htest' hbody)⟩) h
  obtain ⟨⟨middle, hbefore, htest, hmoves⟩, hend⟩ := hspec
  exact ⟨middle, hbefore, htest, hmoves, hend⟩

theorem BlockMoves.moves (h : BlockMoves height s s') : Moves height s s' :=
  Relation.ReflTransGen.mono (fun _ _ => Move.block) _ _ h

theorem step_moves {c c' : Chain} {event : Event} (h : step c event = .ok c') :
    c'.height = event.height ∧
      if event.submits then
        ∃ s₁, Proposed event.height c.state s₁ ∧ Moves event.height s₁ c'.state
      else Moves event.height c.state c'.state := by
  cases event with
  | deliver height msg =>
    simp only [step, bind_eq_ok, pure_eq_ok] at h
    obtain ⟨-, -, state, hhandle, rfl⟩ := h
    have hmoves := handle_moves hhandle
    refine ⟨rfl, ?_⟩
    split_ifs at hmoves ⊢ with hsubmits
    · obtain ⟨s₁, hproposed, hmove⟩ := hmoves
      exact ⟨s₁, hproposed, .single (.message hmove)⟩
    · exact .single (.message hmoves)
  | endBlock height staking order =>
    simp only [step, bind_eq_ok, pure_eq_ok] at h
    obtain ⟨e, hend, rfl⟩ := h
    obtain ⟨middle, hbefore, -, hafter, -⟩ := endBlocker_moves hend
    exact ⟨rfl, BlockMoves.moves (hbefore.trans hafter)⟩

end Tepleton.Gov
