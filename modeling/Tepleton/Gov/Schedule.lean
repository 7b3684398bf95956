import Tepleton.Gov.Agenda
import Tepleton.Gov.Moves

/-!
# Proposals are decided on time

The store follows the agenda: every move of governance is a step of the agenda it stands for, or leaves
it alone (`Move.agenda`).  So both queues stay in order, and what `EndBlocker` leaves at their fronts
shows that nothing is overdue.

Ids of proposals are `int64` and are counted up, so a run with fewer than `2 ^ 64` submissions never
uses one twice (`decided_on_time`); the next one meets the first again (`id_comes_back`).
-/

namespace Tepleton.Gov

open Lib Auth Bank

/-! ## The agenda of a store -/

/-- What the agenda knows of a proposal. -/
def TextProposal.item (p : TextProposal) : Item := ⟨p.status, p.submitBlock, p.votingStartBlock⟩

namespace Store

/-- The agenda that a store stands for. -/
def agenda (s : Store) : Agenda where
  items id := (s.getProposal id).map TextProposal.item
  inactive := s.inactiveProposalQueue
  active := s.activeProposalQueue
  voted := { id | ∃ (addr : Address) (vote : Vote), s.votes[toLex (id, addr)]? = some vote }

/-- Proposals and votes are stored under the ids they carry. -/
structure Keyed (s : Store) : Prop where
  proposals (id : ℤ) (p : TextProposal) (h : s.getProposal id = some p) : p.proposalID = id
  votes : s.VotesKeyed

/-- The next id is not in use. -/
def FreshID (s : Store) : Prop := ∀ id ∈ s.nextProposalID, s.getProposal id = none

instance (s : Store) : Decidable s.FreshID :=
  inferInstanceAs (Decidable (∀ id ∈ s.nextProposalID, s.getProposal id = none))

variable {s s' : Store} {p : TextProposal}

theorem item_of_getProposal {id : ℤ} (h : s.getProposal id = some p) :
    s.agenda.items id = some p.item := by
  simp [agenda, h]

theorem getProposal_of_item {id : ℤ} {item : Item} (h : s.agenda.items id = some item) :
    ∃ p, s.getProposal id = some p ∧ p.item = item := by
  simpa [agenda] using h

theorem getProposal_setProposal (s : Store) (p : TextProposal) (id : ℤ) :
    (s.setProposal p).getProposal id = if p.proposalID = id then some p else s.getProposal id :=
  KVStore.getElem?_insert _ _ _ _

theorem agenda_setProposal (s : Store) (p : TextProposal) :
    (s.setProposal p).agenda = s.agenda.setItem p.proposalID (some p.item) := by
  ext : 1
  · funext id
    by_cases hid : p.proposalID = id
    · subst hid
      rw [Agenda.setItem_items_self]
      exact item_of_getProposal (by rw [getProposal_setProposal, if_pos rfl])
    · rw [Agenda.setItem_items_of_ne _ _ (Ne.symm hid)]
      simp only [agenda, getProposal_setProposal, if_neg hid]
  all_goals rfl

theorem agenda_setProposal_same {old : TextProposal} (h : s.getProposal p.proposalID = some old)
    (hsame : p.item = old.item) : (s.setProposal p).agenda = s.agenda := by
  rw [agenda_setProposal, hsame, Agenda.setItem]
  have hitem := item_of_getProposal h
  rw [← hitem, Function.update_eq_self]

theorem agenda_activateVotingPeriod {height : ℤ} (s : Store) (p : TextProposal) :
    (s.activateVotingPeriod height p).agenda =
      { s.agenda.setItem p.proposalID (some ⟨.votingPeriod, p.submitBlock, height⟩) with
        active := s.activeProposalQueue ++ [p.proposalID] } := by
  have hset := agenda_setProposal s { p with votingStartBlock := height, status := .votingPeriod }
  have hitems := congrArg Agenda.items hset
  ext : 1
  · exact hitems
  all_goals rfl

theorem agenda_deleteProposal (s : Store) (p : TextProposal) :
    (s.deleteProposal p).agenda = s.agenda.setItem p.proposalID none := by
  have hget : ∀ id, (s.deleteProposal p).getProposal id =
      if p.proposalID = id then none else s.getProposal id := fun id =>
    KVStore.getElem?_erase _ _ _
  ext : 1
  · funext id
    by_cases hid : p.proposalID = id
    · subst hid
      simp [agenda, hget]
    · rw [Agenda.setItem_items_of_ne _ _ (Ne.symm hid)]
      simp only [agenda, hget, if_neg hid]
  all_goals rfl

theorem agenda_setDeposit (s : Store) (id : ℤ) (addr : Address) (deposit : Deposit) :
    (s.setDeposit id addr deposit).agenda = s.agenda := rfl

theorem agenda_setVote (s : Store) (id : ℤ) (voter : Address) (vote : Vote) :
    (s.setVote id voter vote).agenda = { s.agenda with voted := insert id s.agenda.voted } := by
  have hvoted : (s.setVote id voter vote).agenda.voted = insert id s.agenda.voted := by
    ext other
    simp only [agenda, setVote, Set.mem_ofPred_eq, Set.mem_insert_iff]
    constructor
    · rintro ⟨addr, stored, hstored⟩
      by_cases hkey : toLex (id, voter) = toLex (other, addr)
      · exact .inl (Prod.mk.inj (toLex.injective hkey)).1.symm
      · rw [KVStore.getElem?_insert_of_ne _ _ hkey] at hstored
        exact .inr ⟨addr, stored, hstored⟩
    · rintro (rfl | ⟨addr, stored, hstored⟩)
      · exact ⟨voter, vote, KVStore.getElem?_insert_self _ _ _⟩
      · by_cases hkey : toLex (id, voter) = toLex (other, addr)
        · exact ⟨addr, vote, by rw [← hkey]; exact KVStore.getElem?_insert_self _ _ _⟩
        · exact ⟨addr, stored, by rw [KVStore.getElem?_insert_of_ne _ _ hkey, hstored]⟩
  ext : 1
  · rfl
  · rfl
  · rfl
  · exact hvoted

theorem agenda_deleteVotes (hkeyed : s.VotesKeyed) (id : ℤ) :
    (s.deleteVotes id).agenda = { s.agenda with voted := s.agenda.voted \ {id} } := by
  have hvoted : (s.deleteVotes id).agenda.voted = s.agenda.voted \ {id} := by
    ext other
    simp only [agenda, Set.mem_ofPred_eq, Set.mem_sdiff, Set.mem_singleton_iff,
      getElem?_deleteVotes hkeyed]
    by_cases hother : other = id <;> simp [hother]
  rw [deleteVotes_eq]
  rw [deleteVotes_eq] at hvoted
  ext : 1
  · rfl
  · rfl
  · rfl
  · exact hvoted

theorem agenda_deleteDeposits (s : Store) (id : ℤ) : (s.deleteDeposits id).agenda = s.agenda := by
  rw [deleteDeposits_eq]
  rfl

theorem agenda_decided (hkeyed : s.VotesKeyed) (p : TextProposal) (passes : Bool) :
    (s.decided p passes).agenda =
      { s.agenda.setItem p.proposalID
          (some { p.item with status := if passes then .passed else .rejected }) with
        voted := s.agenda.voted \ {p.proposalID} } := by
  rw [decided, agenda_setProposal, agenda_deleteDeposits, agenda_deleteVotes hkeyed]
  rfl

/-! ## Keys -/

namespace Keyed

theorem of_eq (h : s.Keyed) (hproposals : s'.proposals = s.proposals) (hvotes : s'.votes = s.votes) :
    s'.Keyed where
  proposals id p hp := h.proposals id p (by rwa [getProposal, hproposals] at hp)
  votes key vote hvote := h.votes key vote (by rwa [hvotes] at hvote)

theorem setProposal (h : s.Keyed) (p : TextProposal) : (s.setProposal p).Keyed where
  proposals id q hq := by
    rw [getProposal_setProposal] at hq
    split_ifs at hq with hid
    · cases hq
      exact hid
    · exact h.proposals id q hq
  votes := h.votes

theorem setVote (h : s.Keyed) (id : ℤ) (voter : Address) (option : VoteOption) :
    (s.setVote id voter ⟨voter, id, option⟩).Keyed where
  proposals := h.proposals
  votes key vote hvote := by
    by_cases hkey : toLex (id, voter) = key
    · subst hkey
      rw [Store.setVote, KVStore.getElem?_insert_self] at hvote
      cases hvote
      rfl
    · rw [Store.setVote, KVStore.getElem?_insert_of_ne _ _ hkey] at hvote
      exact h.votes key vote hvote

theorem deleteProposal (h : s.Keyed) (p : TextProposal) : (s.deleteProposal p).Keyed where
  proposals id q hq := by
    rw [getProposal, Store.deleteProposal, KVStore.getElem?_erase] at hq
    split_ifs at hq with hid
    exact h.proposals id q hq
  votes := h.votes

theorem decided (h : s.Keyed) (p : TextProposal) (passes : Bool) : (s.decided p passes).Keyed := by
  refine setProposal ?_ _
  rw [deleteDeposits_eq, deleteVotes_eq]
  refine ⟨h.proposals, fun key vote hvote => ?_⟩
  have hold : (s.deleteVotes p.proposalID).votes[key]? = some vote := hvote
  rw [getElem?_deleteVotes h.votes] at hold
  split_ifs at hold
  exact h.votes key vote hold

end Keyed

end Store

/-! ## Moves and steps of the agenda -/

variable {height : ℤ} {s s' : State}

theorem MessageMove.agenda {coins : Coins} (hkeyed : s.store.Keyed)
    (hmove : MessageMove height coins s s') :
    s'.store.Keyed ∧ (s'.store.agenda = s.store.agenda ∨
      Agenda.Step height s.store.agenda s'.store.agenda) := by
  cases hmove with
  | @deposit id p addr total accounts store enough hp hopen haccounts htotal hput henough =>
    obtain ⟨deposit, rfl, -⟩ := putDeposit_eq_ok hput
    obtain rfl := hkeyed.proposals id p hp
    have hsame : (s.store.setProposal { p with totalDeposit := total }).agenda = s.store.agenda :=
      Store.agenda_setProposal_same hp rfl
    have hkeyed' : Store.Keyed ((s.store.setProposal { p with totalDeposit := total }).setDeposit
        p.proposalID addr deposit) := (hkeyed.setProposal _).of_eq rfl rfl
    cases enough with
    | false => exact ⟨hkeyed', .inl hsame⟩
    | true =>
      simp only [if_true]
      refine ⟨(hkeyed'.setProposal _).of_eq rfl rfl, .inr ?_⟩
      rw [Store.agenda_activateVotingPeriod, Store.agenda_setDeposit, hsame]
      exact .activate (Store.item_of_getProposal hp) (henough rfl)
  | @vote id p voter option hp hstatus hoption =>
    refine ⟨hkeyed.setVote id voter option, .inr ?_⟩
    rw [Store.agenda_setVote]
    exact .vote (Store.item_of_getProposal hp) hstatus

theorem BlockMove.agenda (hkeyed : s.store.Keyed) (hmove : BlockMove height s s') :
    s'.store.Keyed ∧ Agenda.Step height s.store.agenda s'.store.agenda := by
  cases hmove with
  | @drop front rest p hqueue hp hstatus hended =>
    obtain rfl := hkeyed.proposals front p hp
    have hkeyed' : Store.Keyed { s.store with inactiveProposalQueue := rest } :=
      hkeyed.of_eq rfl rfl
    refine ⟨hkeyed'.deleteProposal p, ?_⟩
    rw [Store.agenda_deleteProposal]
    exact .drop hqueue (Store.item_of_getProposal hp) hstatus
  | @skip front rest p hqueue hp hstatus =>
    exact ⟨hkeyed.of_eq rfl rfl, .skip hqueue (Store.item_of_getProposal hp) hstatus⟩
  | @decide front rest p accounts passes hqueue hp hended hrefund =>
    obtain rfl := hkeyed.proposals front p hp
    have hkeyed' : Store.Keyed { s.store with activeProposalQueue := rest } :=
      hkeyed.of_eq rfl rfl
    refine ⟨hkeyed'.decided p passes, ?_⟩
    rw [Store.agenda_decided hkeyed'.votes]
    exact .decide passes hqueue (Store.item_of_getProposal hp)

theorem Move.agenda (hkeyed : s.store.Keyed) (hmove : Move height s s') :
    s'.store.Keyed ∧ (s'.store.agenda = s.store.agenda ∨
      Agenda.Step height s.store.agenda s'.store.agenda) := by
  cases hmove with
  | message hmove => exact hmove.agenda hkeyed
  | block hmove => exact ⟨(hmove.agenda hkeyed).1, .inr (hmove.agenda hkeyed).2⟩

theorem Proposed.agenda (hkeyed : s.store.Keyed) (hproposed : Proposed height s s')
    (hfresh : s.store.FreshID) :
    s'.store.Keyed ∧ Agenda.Submitted height s.store.agenda s'.store.agenda := by
  obtain @⟨p, hnext, hstatus, -, hsubmit⟩ := hproposed
  have hkeyed' : Store.Keyed { s.store with nextProposalID := some (int64 (p.proposalID + 1)) } :=
    hkeyed.of_eq rfl rfl
  refine ⟨(hkeyed'.setProposal p).of_eq rfl rfl, ?_⟩
  have hset := Store.agenda_setProposal
    { s.store with nextProposalID := some (int64 (p.proposalID + 1)) } p
  have hagenda : ((Store.setProposal { s.store with
      nextProposalID := some (int64 (p.proposalID + 1)) } p).inactiveProposalQueuePush p).agenda =
        { s.store.agenda.setItem p.proposalID (some p.item) with
          inactive := s.store.agenda.inactive ++ [p.proposalID] } := by
    have hitems := congrArg Agenda.items hset
    ext : 1
    · exact hitems
    all_goals rfl
  rw [hagenda]
  refine .intro p.item ?_ hstatus hsubmit
  simp [Store.agenda, hfresh p.proposalID hnext]

theorem Proposed.ids (hproposed : Proposed height s s') :
    ∃ id, s.store.nextProposalID = some id ∧ s'.store.nextProposalID = some (int64 (id + 1)) ∧
      ∀ other item, s'.store.agenda.items other = some item →
        other = id ∨ ∃ old, s.store.agenda.items other = some old := by
  obtain @⟨p, hnext, -⟩ := hproposed
  refine ⟨p.proposalID, hnext, rfl, fun other item hitem => ?_⟩
  obtain ⟨q, hq, rfl⟩ := Store.getProposal_of_item hitem
  have hset := Store.getProposal_setProposal
    { s.store with nextProposalID := some (int64 (p.proposalID + 1)) } p other
  split_ifs at hset with hid
  · exact .inl hid.symm
  · exact .inr ⟨q.item, Store.item_of_getProposal (hset.symm.trans hq)⟩

theorem Move.nextProposalID (hmove : Move height s s') :
    s'.store.nextProposalID = s.store.nextProposalID := by
  cases hmove with
  | message hmove =>
    cases hmove with
    | deposit enough _ _ _ _ hput =>
      obtain ⟨deposit, rfl, -⟩ := putDeposit_eq_ok hput
      cases enough <;> rfl
    | vote => rfl
  | block hmove =>
    cases hmove with
    | drop => rfl
    | skip => rfl
    | decide passes =>
      rw [Store.decided, Store.deleteDeposits_eq, Store.deleteVotes_eq]
      rfl

theorem Moves.agenda (hkeyed : s.store.Keyed) (hmoves : Moves height s s') :
    s'.store.Keyed ∧ Agenda.Steps height s.store.agenda s'.store.agenda ∧
      s'.store.nextProposalID = s.store.nextProposalID := by
  induction hmoves with
  | refl => exact ⟨hkeyed, .refl, rfl⟩
  | tail _ hmove ih =>
    obtain ⟨hkeyed, hsteps, hnext⟩ := ih
    obtain ⟨hkeyed', hsame | hstep⟩ := hmove.agenda hkeyed
    · exact ⟨hkeyed', hsame ▸ hsteps, hmove.nextProposalID.trans hnext⟩
    · exact ⟨hkeyed', hsteps.tail hstep, hmove.nextProposalID.trans hnext⟩

/-! ## Deadlines -/

theorem lt_of_lt_int64 {x : ℤ} (hlow : -2 ^ 63 ≤ x - 200) (hheight : height < 2 ^ 63)
    (h : height < int64 x) : height < x := by
  obtain ⟨k, hk⟩ := exists_int64_eq x
  have hrange := int64_range x
  omega

theorem depositsPending_of_front (horderly : s.store.agenda.Orderly height)
    (hheight : height < 2 ^ 63) (h : shouldPopInactiveProposalQueue height s.store = false) :
    s.store.agenda.DepositsPending height getDepositProcedure.maxDepositPeriod := by
  apply horderly.depositsPending
  intro front hfront
  have hmem : front ∈ s.store.agenda.inactive := List.mem_of_mem_head? hfront
  obtain ⟨item, hitem⟩ := horderly.inactive_named front hmem
  obtain ⟨p, hp, rfl⟩ := Store.getProposal_of_item hitem
  have hlow := horderly.inactive.low front hmem
  have hhead : s.store.inactiveProposalQueue.head? = some front := hfront
  rw [Agenda.submitted_of_item hitem] at hlow ⊢
  rw [shouldPopInactiveProposalQueue, Store.inactiveProposalQueuePeek, hhead, Option.bind_some] at h
  simp only [hp] at h
  split_ifs at h with hstatus
  rw [TextProposal.depositEnded, decide_eq_false_iff_not, not_le] at h
  exact lt_of_lt_int64 (by simpa [getDepositProcedure] using hlow) hheight h

theorem votesPending_of_front (horderly : s.store.agenda.Orderly height)
    (hheight : height < 2 ^ 63) (h : shouldPopActiveProposalQueue height s.store = false) :
    s.store.agenda.VotesPending height getVotingProcedure.votingPeriod := by
  apply horderly.votesPending
  intro front hfront
  have hmem : front ∈ s.store.agenda.active := List.mem_of_mem_head? hfront
  obtain ⟨item, hitem, -⟩ := horderly.active_voting front hmem
  obtain ⟨p, hp, rfl⟩ := Store.getProposal_of_item hitem
  have hlow := horderly.active.low front hmem
  have hhead : s.store.activeProposalQueue.head? = some front := hfront
  rw [Agenda.started_of_item hitem] at hlow ⊢
  rw [shouldPopActiveProposalQueue, Store.activeProposalQueuePeek, hhead, Option.bind_some] at h
  simp only [hp] at h
  rw [TextProposal.votingEnded, decide_eq_false_iff_not, not_le] at h
  exact lt_of_lt_int64 (by simpa [getVotingProcedure] using hlow) hheight h

theorem endBlocker_pending {order : ℤ → RangeOrder ValidatorGovInfo} {staking : Stake.Store}
    {e : BlockEnd} (hkeyed : s.store.Keyed) (horderly : s.store.agenda.Orderly height)
    (hlow : -2 ^ 63 ≤ height) (hheight : height < 2 ^ 63)
    (h : endBlocker height order staking s = .ok e) :
    e.state.store.agenda.DepositsPending height getDepositProcedure.maxDepositPeriod ∧
      e.state.store.agenda.VotesPending height getVotingProcedure.votingPeriod := by
  obtain ⟨middle, hbefore, hfront, hafter, hfront'⟩ := endBlocker_moves h
  obtain ⟨hkeyed, hsteps, -⟩ := hbefore.moves.agenda hkeyed
  obtain ⟨horderly, -⟩ := horderly.steps hlow hsteps
  obtain ⟨-, hsteps', -⟩ := hafter.moves.agenda hkeyed
  obtain ⟨horderly', -⟩ := horderly.steps hlow hsteps'
  exact ⟨(depositsPending_of_front horderly hheight hfront).steps hsteps',
    votesPending_of_front horderly' hheight hfront'⟩

/-! ## Runs -/

/-- The number of proposals submitted. -/
def submissions (history : List (Chain × Event)) : ℕ := history.countP fun entry => entry.2.submits

/-- What holds after `n` submissions: the queues are in order, and only ids that were given out are in
use. -/
structure Scheduled (start : ℤ) (n : ℕ) (c : Chain) : Prop where
  keyed : c.state.store.Keyed
  orderly : c.state.store.agenda.Orderly c.height
  next : c.state.store.nextProposalID = some (int64 (start + n))
  used (id : ℤ) (item : Item) (h : c.state.store.agenda.items id = some item) :
    ∃ i < n, id = int64 (start + i)

variable {start : ℤ} {n : ℕ} {c c' : Chain} {event : Event}

theorem int64_add_ne {i : ℕ} (hi : i < n) (hn : n < 2 ^ 64) :
    int64 (start + n) ≠ int64 (start + i) := by
  intro heq
  obtain ⟨k, hk⟩ := exists_int64_eq (start + n)
  obtain ⟨k', hk'⟩ := exists_int64_eq (start + i)
  omega

theorem step_orderly (hkeyed : c.state.store.Keyed)
    (horderly : c.state.store.agenda.Orderly c.height) (htimely : event.Timely c)
    (hfresh : event.submits = true → c.state.store.FreshID) (hstep : step c event = .ok c') :
    c'.state.store.Keyed ∧ c'.state.store.agenda.Orderly c'.height ∧
      Agenda.Advances c.state.store.agenda c'.state.store.agenda := by
  obtain ⟨hheight, hmoves⟩ := step_moves hstep
  obtain ⟨hlater, hlow, -⟩ := htimely
  have horderly := horderly.later hlater
  rw [hheight]
  split_ifs at hmoves with hsubmits
  · obtain ⟨s₁, hproposed, hmoves⟩ := hmoves
    obtain ⟨hkeyed₁, hsubmitted⟩ := hproposed.agenda hkeyed (hfresh hsubmits)
    obtain ⟨hkeyed', hsteps, -⟩ := hmoves.agenda hkeyed₁
    obtain ⟨horderly', hadvances⟩ := (horderly.submit hlow hsubmitted).steps hlow hsteps
    exact ⟨hkeyed', horderly', hsubmitted.advances.trans hadvances⟩
  · obtain ⟨hkeyed', hsteps, -⟩ := hmoves.agenda hkeyed
    obtain ⟨horderly', hadvances⟩ := horderly.steps hlow hsteps
    exact ⟨hkeyed', horderly', hadvances⟩

/-- How a step counts ids. -/
theorem step_ids (hkeyed : c.state.store.Keyed)
    (hfresh : event.submits = true → c.state.store.FreshID)
    (hnext : c.state.store.nextProposalID = some (int64 (start + n)))
    (hused : ∀ id item, c.state.store.agenda.items id = some item → ∃ i < n, id = int64 (start + i))
    (hstep : step c event = .ok c') :
    let n' := n + if event.submits then 1 else 0
    c'.state.store.nextProposalID = some (int64 (start + n')) ∧
      ∀ id item, c'.state.store.agenda.items id = some item → ∃ i < n', id = int64 (start + i) := by
  obtain ⟨-, hmoves⟩ := step_moves hstep
  simp only
  split_ifs at hmoves ⊢ with hsubmits
  · obtain ⟨s₁, hproposed, hmoves⟩ := hmoves
    obtain ⟨hkeyed₁, -⟩ := hproposed.agenda hkeyed (hfresh hsubmits)
    obtain ⟨id, hid, hcounted, hnamed⟩ := hproposed.ids
    rw [hnext, Option.some.injEq] at hid
    subst hid
    obtain ⟨-, hsteps, hnext'⟩ := hmoves.agenda hkeyed₁
    constructor
    · have hsucc : int64 (int64 (start + n) + 1) = int64 (start + (n + 1 : ℕ)) := by
        obtain ⟨k, hk⟩ := exists_int64_eq (start + n)
        exact int64_eq_int64 k (by push_cast; omega)
      rw [hnext', hcounted, hsucc]
    · intro other item hitem
      obtain ⟨old, hold⟩ := hsteps.named hitem
      obtain rfl | ⟨older, holder⟩ := hnamed other old hold
      · exact ⟨n, Nat.lt_succ_self n, rfl⟩
      · obtain ⟨i, hi, hused⟩ := hused other older holder
        exact ⟨i, Nat.lt_succ_of_lt hi, hused⟩
  · obtain ⟨-, hsteps, hnext'⟩ := hmoves.agenda hkeyed
    refine ⟨hnext'.trans hnext, fun id item hitem => ?_⟩
    obtain ⟨old, hold⟩ := hsteps.named hitem
    exact hused id old hold

theorem Scheduled.step (h : Scheduled start n c) (htimely : event.Timely c)
    (hroom : event.submits = true → n < 2 ^ 64) (hstep : step c event = .ok c') :
    Scheduled start (n + if event.submits then 1 else 0) c' ∧
      Agenda.Advances c.state.store.agenda c'.state.store.agenda := by
  have hfresh : event.submits = true → c.state.store.FreshID := by
    intro hsubmits id hid
    rw [h.next, Option.mem_some_iff] at hid
    by_contra hne
    obtain ⟨p, hp⟩ := Option.ne_none_iff_exists'.mp hne
    obtain ⟨i, hi, hused⟩ := h.used _ _ (Store.item_of_getProposal hp)
    exact int64_add_ne hi (hroom hsubmits) (hid.trans hused)
  obtain ⟨hkeyed, horderly, hadvances⟩ := step_orderly h.keyed h.orderly htimely hfresh hstep
  obtain ⟨hnext, hused⟩ := step_ids h.keyed hfresh h.next h.used hstep
  exact ⟨⟨hkeyed, horderly, hnext, hused⟩, hadvances⟩

/-- The queues and votes of a store are as they should be between blocks and within them. -/
structure OnSchedule (s : Store) : Prop where
  deposit_once (id : ℤ) (p : TextProposal) (h : s.getProposal id = some p)
    (hstatus : p.status = .depositPeriod) : s.inactiveProposalQueue.count id = 1
  voting_once (id : ℤ) (p : TextProposal) (h : s.getProposal id = some p)
    (hstatus : p.status = .votingPeriod) : s.activeProposalQueue.count id = 1
  queued (id : ℤ) (h : id ∈ s.inactiveProposalQueue ∨ id ∈ s.activeProposalQueue) :
    ∃ p, s.getProposal id = some p
  voted (id : ℤ) (addr : Address) (vote : Vote) (h : s.votes[toLex (id, addr)]? = some vote) :
    ∃ p, s.getProposal id = some p ∧ p.status = .votingPeriod

/-- No proposal is past its deposit period or its voting period at this height. -/
def NothingOverdue (height : ℤ) (s : Store) : Prop :=
  ∀ id p, s.getProposal id = some p →
    ¬ (p.status = .depositPeriod ∧
        p.submitBlock + getDepositProcedure.maxDepositPeriod ≤ height) ∧
      ¬ (p.status = .votingPeriod ∧
        p.votingStartBlock + getVotingProcedure.votingPeriod ≤ height)

theorem Scheduled.onSchedule (h : Scheduled start n c) : OnSchedule c.state.store where
  deposit_once id p hp hstatus := List.count_eq_one_of_mem h.orderly.inactive.nodup
    (h.orderly.deposit_queued id p.item (Store.item_of_getProposal hp) hstatus)
  voting_once id p hp hstatus := List.count_eq_one_of_mem h.orderly.active.nodup
    (h.orderly.voting_queued id p.item (Store.item_of_getProposal hp) hstatus)
  queued id hid := by
    have hitem : ∃ item, c.state.store.agenda.items id = some item := by
      rcases hid with hid | hid
      · exact h.orderly.inactive_named id hid
      · obtain ⟨item, hitem, -⟩ := h.orderly.active_voting id hid
        exact ⟨item, hitem⟩
    obtain ⟨item, hitem⟩ := hitem
    obtain ⟨p, hp, -⟩ := Store.getProposal_of_item hitem
    exact ⟨p, hp⟩
  voted id addr vote hvote := by
    obtain ⟨item, hitem, hstatus⟩ := h.orderly.voted_voting id ⟨addr, vote, hvote⟩
    obtain ⟨p, hp, rfl⟩ := Store.getProposal_of_item hitem
    exact ⟨p, hp, hstatus⟩

theorem Scheduled.nothingOverdue {height : ℤ} {staking : Stake.Store}
    {order : ℤ → RangeOrder ValidatorGovInfo} (h : Scheduled start n c)
    (htimely : (Event.endBlock height staking order).Timely c)
    (hstep : Gov.step c (.endBlock height staking order) = .ok c') :
    NothingOverdue height c'.state.store := by
  obtain ⟨hlater, hlow, hheight⟩ := htimely
  simp only [Gov.step, bind_eq_ok, pure_eq_ok] at hstep
  obtain ⟨e, hend, rfl⟩ := hstep
  obtain ⟨hdeposits, hvotes⟩ :=
    endBlocker_pending h.keyed (h.orderly.later hlater) hlow hheight hend
  intro id p hp
  have hitem := Store.item_of_getProposal hp
  constructor
  · rintro ⟨hstatus, hended⟩
    exact absurd (hdeposits id p.item hitem hstatus) (not_lt.mpr hended)
  · rintro ⟨hstatus, hended⟩
    exact absurd (hvotes id p.item hitem hstatus) (not_lt.mpr hended)

/-- A chain without proposals. -/
def newChain (height start : ℤ) (accounts : AccountStore) : Chain :=
  ⟨height, accounts, emptyStore start⟩

theorem scheduled_newChain {height : ℤ} {accounts : AccountStore} (hlow : -2 ^ 63 ≤ start)
    (hhigh : start < 2 ^ 63) : Scheduled start 0 (newChain height start accounts) where
  keyed := ⟨fun id p h => by simp [Store.getProposal, newChain, emptyStore] at h,
    fun key vote h => by simp [newChain, emptyStore] at h⟩
  orderly :=
    { inactive := ⟨List.nodup_nil, .nil, fun _ h => (List.not_mem_nil h).elim,
        fun _ h => (List.not_mem_nil h).elim⟩
      active := ⟨List.nodup_nil, .nil, fun _ h => (List.not_mem_nil h).elim,
        fun _ h => (List.not_mem_nil h).elim⟩
      inactive_named := fun _ h => (List.not_mem_nil h).elim
      active_voting := fun _ h => (List.not_mem_nil h).elim
      deposit_queued := fun id item h => by
        simp [Store.agenda, Store.getProposal, newChain, emptyStore] at h
      voting_queued := fun id item h => by
        simp [Store.agenda, Store.getProposal, newChain, emptyStore] at h
      voted_voting := fun id h => by simp [Store.agenda, newChain, emptyStore] at h }
  next := by
    rw [Nat.cast_zero, add_zero, int64_eq_self hlow hhigh]
    rfl
  used id item h := by simp [Store.agenda, Store.getProposal, newChain, emptyStore] at h

/-- In every run with at most `2 ^ 64` submissions, proposals are decided on time and exactly once. -/
theorem decided_on_time {height start : ℤ} {accounts : AccountStore} {history : List (Chain × Event)}
    {c : Chain} (hstart : -2 ^ 63 ≤ start ∧ start < 2 ^ 63)
    (hrun : Run step (newChain height start accounts) history c)
    (htimely : Run.Meets (fun c event => event.Timely c) history)
    (hroom : submissions history ≤ 2 ^ 64) :
    OnSchedule c.state.store ∧
      (∀ entry ∈ history,
        Agenda.Advances entry.1.state.store.agenda c.state.store.agenda) ∧
      ∀ entry ∈ history, ∀ height staking order c', entry.2 = .endBlock height staking order →
        step entry.1 entry.2 = .ok c' → NothingOverdue height c'.state.store := by
  have hall : Scheduled start (submissions history) c ∧
      (∀ entry ∈ history, Agenda.Advances entry.1.state.store.agenda c.state.store.agenda) ∧
      ∀ entry ∈ history, ∀ height staking order c', entry.2 = .endBlock height staking order →
        step entry.1 entry.2 = .ok c' → NothingOverdue height c'.state.store := by
    induction hrun with
    | nil =>
      exact ⟨scheduled_newChain hstart.1 hstart.2, fun _ h => (List.not_mem_nil h).elim,
        fun _ h => (List.not_mem_nil h).elim⟩
    | @snoc history c c' event hrun hstep ih =>
      rw [Run.meets_append] at htimely
      have hcount : submissions (history ++ [(c, event)]) =
          submissions history + if event.submits then 1 else 0 := by
        rw [submissions, List.countP_append, List.countP_singleton, submissions]
      rw [hcount] at hroom ⊢
      obtain ⟨hscheduled, hadvances, hdue⟩ := ih htimely.1 (by omega)
      have hfits : event.submits = true → submissions history < 2 ^ 64 := by
        intro hsubmits
        rw [if_pos hsubmits] at hroom
        omega
      obtain ⟨hscheduled', hlast⟩ := hscheduled.step htimely.2 hfits hstep
      refine ⟨hscheduled', ?_, ?_⟩
      · intro entry hentry
        rcases List.mem_append.mp hentry with hentry | hentry
        · exact (hadvances entry hentry).trans hlast
        · rw [List.mem_singleton.mp hentry]
          exact hlast
      · intro entry hentry
        rcases List.mem_append.mp hentry with hentry | hentry
        · exact hdue entry hentry
        · rw [List.mem_singleton.mp hentry]
          rintro height staking order last rfl hlast
          exact hscheduled.nothingOverdue htimely.2 hlast
  exact ⟨hall.1.onSchedule, hall.2⟩

/-! ## Two runs -/

/-- A submission with an initial deposit. -/
def submitWith (height : ℤ) (initialDeposit : Coins) : Event :=
  .deliver height (.submitProposal ⟨"title", "description", proposalTypeText, [1], initialDeposit⟩)

/-- Maps are gone through in the order of their keys. -/
def ascending : RangeOrder ValidatorGovInfo := ⟨id, fun _ => .refl _⟩

/-- Nobody has staked anything. -/
def nothingStaked : Stake.Store :=
  Stake.emptyStore Stake.defaultParams Stake.initialPool ⟨∅, 0⟩

/-- The account of the proposer. -/
def proposerAccounts : AccountStore := setCoins ⟨∅, 0⟩ [1] [⟨"steak", 30⟩]

/-- The first proposal is voted on and rejected, the second one dropped. -/
theorem decided_on_time_twoProposals :
    ∃ history c, Run step (newChain 0 1 proposerAccounts) history c ∧
      (c.state.store.getProposal 1).map TextProposal.status = some .rejected ∧
      c.state.store.getProposal 2 = none ∧ OnSchedule c.state.store := by
  let events : List Event :=
    [submitWith 1 [⟨"steak", 10⟩], submitWith 2 [⟨"steak", 3⟩], .deliver 2 (.vote ⟨1, [2], optionYes⟩),
      .endBlock 201 nothingStaked fun _ => ascending, .endBlock 202 nothingStaked fun _ => ascending]
  obtain ⟨c, hrun, htest⟩ := Run.of_leadsTo step (newChain 0 1 proposerAccounts) events
    (fun c => decide ((c.state.store.getProposal 1).map TextProposal.status = some .rejected ∧
      c.state.store.getProposal 2 = none)) (by decide +kernel)
  have htest := of_decide_eq_true htest
  have hlaw := decided_on_time (by decide) hrun (by decide +kernel) (by decide +kernel)
  exact ⟨_, c, hrun, htest.1, htest.2, hlaw.1⟩

theorem plus_nil (coins : Coins) : coins.plus [] = .ok coins := by
  cases coins <;> rfl

theorem putDeposit_nil (s : Store) (id : ℤ) (addr : Address) :
    ∃ deposit, putDeposit s id addr [] = .ok (s.setDeposit id addr deposit) := by
  rw [putDeposit]
  cases s.getDeposit id addr with
  | none => exact ⟨_, rfl⟩
  | some old =>
    simp only [plus_nil]
    exact ⟨_, rfl⟩

theorem addDeposit_nothing {s : State} {p : TextProposal}
    (hp : s.store.getProposal p.proposalID = some p) (hstatus : p.status = .depositPeriod)
    (htotal : p.totalDeposit = []) (hcoins : getCoins s.accounts [1] = []) :
    ∃ deposit, addDeposit 0 s p.proposalID [1] [] = .ok (⟨setCoins s.accounts [1] [],
      (s.store.setProposal p).setDeposit p.proposalID [1] deposit⟩, false) := by
  obtain ⟨deposit, hput⟩ := putDeposit_nil (s.store.setProposal p) p.proposalID [1]
  have hsubtract : subtractCoins s.accounts [1] [] = .ok (setCoins s.accounts [1] []) := by
    rw [subtractCoins, hcoins]
    rfl
  have hfew : Coins.isGTE [] getDepositProcedure.minDeposit = .ok false := by decide
  have hplus : Coins.plus [] [] = .ok [] := rfl
  have hsame : { p with totalDeposit := [] } = p := by rw [← htotal]
  refine ⟨deposit, ?_⟩
  rw [addDeposit]
  simp only [hp]
  rw [if_neg (by simp [hstatus])]
  simp only [hsubtract, htotal, hplus, hstatus, if_true, bind, Except.bind, hfew]
  rw [← hstatus, hsame]
  simp only [Bool.false_eq_true, if_false, hput]
  rfl

/-- A submission without a deposit always succeeds, and puts the next id into the inactive queue. -/
theorem submit_nothing {id : ℤ} (hnext : c.state.store.nextProposalID = some id)
    (hcoins : getCoins c.state.accounts [1] = []) :
    ∃ c', step c (submitWith 0 []) = .ok c' ∧ c'.height = 0 ∧
      c'.state.store.nextProposalID = some (int64 (id + 1)) ∧
      c'.state.store.inactiveProposalQueue = c.state.store.inactiveProposalQueue ++ [id] ∧
      getCoins c'.state.accounts [1] = [] ∧
      ∃ p, c'.state.store.getProposal id = some p ∧ p.status = .depositPeriod := by
  let p : TextProposal :=
    ⟨id, "title", "description", proposalTypeText, .depositPeriod, 0, [], -1⟩
  let store := (Store.setProposal { c.state.store with
    nextProposalID := some (int64 (id + 1)) } p).inactiveProposalQueuePush p
  have hget : ∀ s : Store, (s.setProposal p).getProposal id = some p := by
    intro s
    rw [Store.getProposal_setProposal, if_pos rfl]
  have hp : store.getProposal p.proposalID = some p := hget _
  obtain ⟨deposit, hdeposit⟩ := addDeposit_nothing (s := ⟨c.state.accounts, store⟩) hp rfl rfl hcoins
  refine ⟨⟨0, setCoins c.state.accounts [1] [], (store.setProposal p).setDeposit id [1] deposit⟩,
    ?_, rfl, rfl, rfl, getCoins_setCoins_self _ _ _, p, hget _, rfl⟩
  have hvalid : MsgSubmitProposal.validateBasic
      ⟨"title", "description", proposalTypeText, [1], []⟩ = .ok () := by decide
  have hnew : c.state.store.newTextProposal 0 "title" "description" proposalTypeText =
      (store, some p) := by
    rw [Store.newTextProposal, Store.getNewProposalID, hnext]
  simp only [step, submitWith, Msg.validateBasic, hvalid, handle, handleMsgSubmitProposal, hnew,
    hdeposit, bind, Except.bind]
  rfl

/-- Any number of proposals can be submitted in one block. -/
theorem exists_submissions (n : ℕ) :
    ∃ history c, Run step (newChain 0 1 ⟨∅, 0⟩) history c ∧
      Run.Meets (fun c event => event.Timely c) history ∧ c.height = 0 ∧
      c.state.store.nextProposalID = some (int64 (1 + n)) ∧
      getCoins c.state.accounts [1] = [] ∧ (0 < n → 1 ∈ c.state.store.inactiveProposalQueue) := by
  induction n with
  | zero =>
    refine ⟨[], _, .nil, fun _ h => (List.not_mem_nil h).elim, rfl, ?_, by decide +kernel, ?_⟩
    · decide
    · exact fun h => absurd h (Nat.lt_irrefl 0)
  | succ n ih =>
    obtain ⟨history, c, hrun, htimely, hheight, hnext, hcoins, hqueued⟩ := ih
    obtain ⟨c', hstep, hheight', hnext', hqueue, hcoins', -⟩ := submit_nothing hnext hcoins
    have hsucc : int64 (int64 (1 + n) + 1) = int64 (1 + (n + 1 : ℕ)) := by
      obtain ⟨k, hk⟩ := exists_int64_eq (1 + n)
      exact int64_eq_int64 k (by push_cast; omega)
    refine ⟨_, c', hrun.snoc hstep, ?_, hheight', by rw [hnext', hsucc], hcoins', ?_⟩
    · rw [Run.meets_append]
      exact ⟨htimely, hheight.le, by decide, by decide⟩
    · intro _
      rw [hqueue]
      rcases Nat.eq_zero_or_pos n with hzero | hpos
      · subst hzero
        exact List.mem_append_right _ (by decide)
      · exact List.mem_append_left _ (hqueued hpos)

/-- After `2 ^ 64` submissions the first id is used again, and its proposal waits twice. -/
theorem id_comes_back :
    ∃ history c, Run step (newChain 0 1 ⟨∅, 0⟩) history c ∧
      Run.Meets (fun c event => event.Timely c) history ∧
      (∃ p, c.state.store.getProposal 1 = some p ∧ p.status = .depositPeriod) ∧
      2 ≤ c.state.store.inactiveProposalQueue.count 1 ∧ ¬ OnSchedule c.state.store := by
  obtain ⟨history, c, hrun, htimely, hheight, hnext, hcoins, hqueued⟩ := exists_submissions (2 ^ 64)
  have hwrapped : int64 (1 + (2 ^ 64 : ℕ)) = 1 := by decide
  rw [hwrapped] at hnext
  obtain ⟨c', hstep, -, -, hqueue, -, p, hp, hstatus⟩ := submit_nothing hnext hcoins
  have htwice : 2 ≤ c'.state.store.inactiveProposalQueue.count 1 := by
    have hfirst := List.count_pos_iff.mpr (hqueued (by norm_num))
    rw [hqueue, List.count_append, List.count_singleton_self]
    omega
  refine ⟨_, c', hrun.snoc hstep, ?_, ⟨p, hp, hstatus⟩, htwice, ?_⟩
  · rw [Run.meets_append]
    exact ⟨htimely, hheight.le, by decide, by decide⟩
  · intro hlaw
    have honce := hlaw.deposit_once 1 p hp hstatus
    omega

end Tepleton.Gov
