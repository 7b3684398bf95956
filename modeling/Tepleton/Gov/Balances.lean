import Tepleton.Gov.Moves
import Tepleton.Stake.Effects.Redelegate
import Tepleton.Types.CoinGroup

/-!
# Balances stay canonical

Bank, governance and staking share the accounts, and each of them merges sorted lists of coins into the
balances.  A merge drops sums that are zero, but copies a zero amount that meets no coin of its
denomination.  There are such amounts: `IsValid` does not look at the first of several deposited coins
(`zero_deposit_kept`), a slash can leave nothing of an unbonding, and shares can be worth no token.

* `balances_canonical`: in a run that moves no zero amounts all balances stay sorted and positive.
-/

namespace Tepleton.Gov

open Lib Auth Bank

/-! ## Deposits and refunds -/

/-- Balances are sorted and positive, and stored deposits sorted and without zero amounts. -/
structure InOrder (s : State) : Prop where
  accounts : AllCanonical s.accounts
  deposits (key : ℤ ×ₗ Address) (deposit : Deposit) (h : s.store.deposits[key]? = some deposit) :
    deposit.amount.Reduced

variable {height : ℤ} {s s' : State}

theorem Msg.sorted_coins {msg : Msg} (h : msg.validateBasic = .ok ()) : msg.coins.Sorted := by
  cases msg with
  | submitProposal msg =>
    simp only [Msg.validateBasic, MsgSubmitProposal.validateBasic] at h
    split_ifs at h with _ _ _ _ hvalid
    exact Coins.isValid_sorted hvalid
  | deposit msg =>
    simp only [Msg.validateBasic, MsgDeposit.validateBasic] at h
    split_ifs at h with _ hvalid
    exact Coins.isValid_sorted hvalid
  | vote msg => exact Coins.reduced_nil.sorted

theorem InOrder.messageMove {coins : Coins} (hs : InOrder s) (hcoins : coins.Reduced)
    (hmove : MessageMove height coins s s') : InOrder s' := by
  cases hmove with
  | @deposit id p addr total accounts store enough _ _ haccounts _ hput =>
    refine ⟨hs.accounts.subtractCoins hcoins.sorted hcoins.nonzero haccounts, ?_⟩
    obtain ⟨deposit, rfl, hdeposit⟩ := putDeposit_eq_ok hput
    have hreduced : deposit.amount.Reduced := by
      split at hdeposit
      · rw [hdeposit]
        exact hcoins
      · rename_i old hold
        obtain ⟨sum, hsum, rfl⟩ := hdeposit
        exact (hs.deposits (toLex (id, addr)) old hold).plus hcoins hsum
    -- activating the proposal does not touch the deposits
    cases enough <;> exact KVStore.forall_insert hs.deposits hreduced
  | vote => exact ⟨hs.accounts, hs.deposits⟩

/-- Refunds are the deposits that were stored, and those of other proposals stay. -/
theorem InOrder.blockMove (hs : InOrder s) (hmove : BlockMove height s s') : InOrder s' := by
  cases hmove with
  | drop | skip => exact ⟨hs.accounts, hs.deposits⟩
  | @decide front rest p accounts passes _ _ _ hrefund =>
    constructor
    · split_ifs at hrefund
      · refine foldlM_invariant AllCanonical hs.accounts ?_ hrefund
        intro am output am' hmem hall hadd
        obtain ⟨entry, hentry, rfl⟩ := List.mem_map.mp hmem
        have hamount := hs.deposits entry.1 entry.2
          (KVStore.mem_toList.mp (List.mem_filter.mp hentry).1)
        exact hall.addCoins hamount.sorted hamount.nonzero hadd
      · rw [hrefund]
        exact hs.accounts
    · intro key deposit hget
      have hkept : (({ s.store with activeProposalQueue := rest }.deleteVotes
          p.proposalID).deleteDeposits p.proposalID).deposits[key]? = some deposit := hget
      rw [Store.getElem?_deleteDeposits] at hkept
      split_ifs at hkept
      rw [Store.deleteVotes_eq] at hkept
      exact hs.deposits key deposit hkept

theorem InOrder.step {c c' : Chain} {event : Event} (hs : InOrder c.state)
    (hnonzero : ∀ height msg, event = .deliver height msg → msg.coins.Nonzero)
    (h : step c event = .ok c') : InOrder c'.state := by
  cases event with
  | deliver height msg =>
    simp only [Gov.step, bind_eq_ok, pure_eq_ok] at h
    obtain ⟨_, hvalid, state, hhandle, rfl⟩ := h
    have hcoins : msg.coins.Reduced := ⟨Msg.sorted_coins hvalid, hnonzero height msg rfl⟩
    have hmoves := handle_moves hhandle
    split_ifs at hmoves
    · obtain ⟨s₁, ⟨-, -, -, -⟩, hmove⟩ := hmoves
      refine InOrder.messageMove ?_ hcoins hmove
      exact ⟨hs.accounts, hs.deposits⟩
    · exact hs.messageMove hcoins hmoves
  | endBlock height staking order =>
    simp only [Gov.step, bind_eq_ok, pure_eq_ok] at h
    obtain ⟨e, hend, rfl⟩ := h
    obtain ⟨middle, hbefore, -, hafter, -⟩ := endBlocker_moves hend
    exact (hbefore.trans hafter).head_induction_on (motive := fun s _ => InOrder s → InOrder e.state)
      id (fun hmove _ ih hs => ih (hs.blockMove hmove)) hs

end Tepleton.Gov

/-! ## Staking -/

namespace Tepleton.Stake

open Lib Bank

/-- What a step pays out or charges is not zero: the balance of an unbonding that is completed, and
the worth of shares that are redelegated. -/
def Op.MovesNoZero (s : Store) : Op → Prop
  | .completeUnbonding msg =>
    ∀ ubd ∈ s.getUnbondingDelegation msg.delegatorAddr msg.validatorAddr, ubd.balance.amount ≠ 0
  | .beginRedelegate msg => ¬ WorthNothing s msg.validatorSrcAddr msg.sharesAmount
  | _ => True

instance (s : Store) : (op : Op) → Decidable (op.MovesNoZero s)
  | .completeUnbonding _ => inferInstanceAs (Decidable (∀ ubd ∈ _, _))
  | .beginRedelegate _ => inferInstanceAs (Decidable (¬ _))
  | .createValidator _ | .editValidator _ | .delegate _ | .beginUnbonding _ | .completeRedelegate _
  | .revoke _ | .unrevoke _ | .slash _ _ _ _ | .endBlock _ => inferInstanceAs (Decidable True)

theorem unbond_amount {ctx : Ctx} {s s' : Store} {delegatorAddr validatorAddr : Address} {shares : ℚ}
    {amount : ℤ} (h : s.unbond ctx delegatorAddr validatorAddr shares = .ok (s', amount)) :
    WorthNothing s validatorAddr shares ↔ amount = 0 := by
  simp only [Store.unbond, bind_eq_ok, pure_eq_ok, Prod.exists, Prod.mk.injEq] at h
  obtain ⟨s₁, v, amount', hprepare, -, -, -, -, -, -, rfl⟩ := h
  obtain ⟨w, hw, -, hamount, -⟩ := prepareUnbond_tokens hprepare
  rw [WorthNothing, hw, hamount]
  simp

theorem Effect.allCanonical {ctx : Ctx} {s s' : Store} {op : Op} (h : Effect ctx s op s')
    (hall : AllCanonical s.accounts) (hnonzero : op.MovesNoZero s) : AllCanonical s'.accounts := by
  have hsorted : ∀ coin : Coin, Coins.Sorted [coin] := fun _ => List.pairwise_singleton _ _
  have hone : ∀ {coin : Coin}, coin.amount ≠ 0 → Coins.Nonzero [coin] := by
    intro coin hcoin other hother
    rwa [List.mem_singleton.mp hother]
  cases h with
  | inner _ h | beginUnbonding _ h =>
    have haccounts := h.accounts
    exact haccounts ▸ hall
  | pays _ hpaid h hpositive =>
    rw [h.accounts]
    exact hall.subtractCoins (hsorted _) (hone hpositive.ne') hpaid
  | slash h =>
    rw [(slash_sameOuter h).accounts]
    exact hall
  | completeUnbonding hubd _ hadd =>
    exact hall.addCoins (hsorted _) (hone (hnonzero _ hubd)) hadd
  | beginRedelegate hpaid h _ _ _ hunbond =>
    obtain ⟨s₂, hunbond⟩ := hunbond
    have haccounts := h.accounts
    have hamount := (unbond_amount hunbond).not.mp hnonzero
    exact haccounts ▸ hall.subtractCoins (hsorted _) (hone hamount) hpaid
  | completeRedelegate => exact hall

end Tepleton.Stake

/-! ## Runs -/

namespace Tepleton.Ledger

open Lib Auth Bank

/-- The stores of staking, with the accounts, and of governance. -/
structure Chain where
  stake : Stake.State
  gov : Gov.Store

def Chain.accounts (c : Chain) : AccountStore := c.stake.store.accounts

/-- A transfer, a message or the end of a block for governance, and the same for staking. -/
inductive Event
  | send (msg : MsgSend)
  | gov (event : Gov.Event)
  | stake (op : Stake.Op)

def Chain.setAccounts (c : Chain) (accounts : AccountStore) : Chain :=
  { c with stake := { c.stake with store := { c.stake.store with accounts } } }

/-- One step. -/
def step (c : Chain) : Event → Outcome Chain
  | .send msg => do
      msg.validateBasic
      let accounts ← handleMsgSend c.accounts msg
      return c.setAccounts accounts
  | .gov event => do
      let next ← Gov.step ⟨c.stake.ctx.blockHeight, ⟨c.accounts, c.gov⟩⟩ event
      return { c.setAccounts next.state.accounts with gov := next.state.store }
  | .stake op => do
      let stake ← Stake.step c.stake op
      return { c with stake }

/-- No coin with a zero amount is deposited, paid out or charged. -/
def MovesNoZero (c : Chain) : Event → Prop
  | .gov (.deliver _ msg) => msg.coins.Nonzero
  | .stake op => op.MovesNoZero c.stake.store
  | _ => True

instance (c : Chain) : (event : Event) → Decidable (MovesNoZero c event)
  | .gov (.deliver _ msg) => inferInstanceAs (Decidable (∀ coin ∈ msg.coins, _))
  | .stake op => inferInstanceAs (Decidable (op.MovesNoZero c.stake.store))
  | .send _ | .gov (.endBlock _ _ _) => inferInstanceAs (Decidable True)

/-- From canonical balances and stored deposits without zero amounts, transfers, deposits, refunds and
staking lead to canonical balances, if no step moves a zero amount. -/
theorem balances_canonical {start c : Chain} {history : List (Chain × Event)}
    (hrun : Run step start history c) (hstart : AllCanonical start.accounts)
    (hdeposits : ∀ (key : ℤ ×ₗ Address) (deposit : Gov.Deposit),
      start.gov.deposits[key]? = some deposit → deposit.amount.Reduced)
    (hnonzero : Run.Meets MovesNoZero history) : AllCanonical c.accounts := by
  refine (hrun.invariant (fun c => Gov.InOrder ⟨c.accounts, c.gov⟩) ⟨hstart, hdeposits⟩ ?_
    hnonzero).accounts
  intro c event c' hc hmoves hstep
  cases event with
  | send msg =>
    simp only [step, bind_eq_ok, pure_eq_ok] at hstep
    obtain ⟨_, hvalid, accounts, hsend, rfl⟩ := hstep
    exact ⟨hc.accounts.inputOutputCoins hvalid hsend, hc.deposits⟩
  | gov event =>
    simp only [step, bind_eq_ok, pure_eq_ok] at hstep
    obtain ⟨next, hgov, rfl⟩ := hstep
    refine Gov.InOrder.step hc ?_ hgov
    rintro height msg rfl
    exact hmoves
  | stake op =>
    simp only [step, bind_eq_ok, pure_eq_ok] at hstep
    obtain ⟨⟨ctx, store⟩, htaken, rfl⟩ := hstep
    exact ⟨(Stake.step_effect htaken).allCanonical hc.accounts hmoves, hc.deposits⟩

/-- The chain of the staking examples, with no proposals. -/
def genesis : Chain := ⟨Stake.Example.genesis 2, Gov.emptyStore 1⟩

/-- The proposal of account `[1]`, with a first deposit. -/
def proposal (initialDeposit : Coins) : Event :=
  .gov (.deliver 1 (.submitProposal ⟨"title", "text", Gov.proposalTypeText, [1], initialDeposit⟩))

/-- Account `[1]` gives coins away, makes a proposal, creates a validator and unbonds half of it. -/
def busy : List Event :=
  [.send ⟨[⟨[1], [⟨"steak", 4⟩]⟩], [⟨[2], [⟨"steak", 4⟩]⟩]⟩, proposal [⟨"steak", 6⟩],
    .stake (Stake.Example.create 1 100), .stake (Stake.Example.unbond 1 1 50),
    .stake (.endBlock 300000), .stake (.completeUnbonding ⟨[1], [1]⟩)]

theorem genesis_canonical : AllCanonical genesis.accounts := allCanonical_of_toList (by decide +kernel)

theorem balances_canonical_busy :
    ∃ c, Run step genesis (Run.historyOf step genesis busy) c ∧ AllCanonical c.accounts ∧
      getCoins c.accounts [1] = [⟨"steak", 940⟩] := by
  obtain ⟨c, hrun, htest⟩ := Run.of_leadsTo step genesis busy
    (fun c => decide (getCoins c.accounts [1] = [⟨"steak", 940⟩])) (by decide +kernel)
  refine ⟨c, hrun, balances_canonical hrun genesis_canonical ?_ (by decide +kernel),
    of_decide_eq_true htest⟩
  exact fun key deposit hget => by simp [genesis, Gov.emptyStore] at hget

/-- A deposit of nothing of one denomination and something of another leaves a zero amount on the
account. -/
theorem zero_deposit_kept :
    ∃ c, Run step genesis [(genesis, proposal [⟨"atom", 0⟩, ⟨"steak", 6⟩])] c ∧
      AllCanonical genesis.accounts ∧ getCoins c.accounts [1] = [⟨"atom", 0⟩, ⟨"steak", 994⟩] ∧
      ¬ AllCanonical c.accounts := by
  obtain ⟨c, hrun, htest⟩ := Run.of_leadsTo step genesis [proposal [⟨"atom", 0⟩, ⟨"steak", 6⟩]]
    (fun c => decide (getCoins c.accounts [1] = [⟨"atom", 0⟩, ⟨"steak", 994⟩])) (by decide +kernel)
  have hcoins := of_decide_eq_true htest
  refine ⟨c, hrun, genesis_canonical, hcoins, fun hall => ?_⟩
  have hcanonical := hall [1]
  rw [hcoins] at hcanonical
  revert hcanonical
  decide

end Tepleton.Ledger
