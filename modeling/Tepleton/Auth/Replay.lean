import Tepleton.Auth.Outcome
import Tepleton.Gov.Moves
import Tepleton.Ibc.Transfer
import Tepleton.Slashing.Keeper
import Tepleton.Stake.Effects.Frame

/-!
# No transaction passes twice

On a chain the ante handler runs before the messages of a transaction, and what it has saved stays
when it aborts, panics or lets the transaction pass and a message fails.  A message that fails is
rolled back, so it is not a step.

The messages of all modules write accounts through the bank keeper only, which leaves sequence
numbers alone (`OnlyCoins`).  So sequence numbers never decrease, and each signer's is raised when a
transaction passes: from then on the transaction is spent (`Spent`), and a spent transaction does not
pass.
-/

namespace Tepleton.Auth

open Lib Baseapp Bank

variable {Msg : Type}

/-! ## A chain with its modules -/

/-- The stores of all modules.  The accounts are where the staking keeper has them. -/
structure Chain where
  slashing : Slashing.State
  gov : Gov.Store
  ibc : Ibc.Store
  collectedFees : Option Coins

namespace Chain

def accounts (c : Chain) : AccountStore := c.slashing.store.stake.accounts

def setAccounts (c : Chain) (accounts : AccountStore) : Chain :=
  { c with slashing.store.stake.accounts := accounts }

/-- The stores of the ante handler. -/
def anteState (c : Chain) : AnteState := ⟨c.accounts, c.collectedFees⟩

/-- The sequence number of an account. -/
def sequence (c : Chain) (addr : Address) : Option ℤ :=
  (c.accounts.getAccount addr).map Account.sequence

/-- Every sequence number is an `int64` that can still be raised. -/
def InRange (c : Chain) : Prop :=
  ∀ addr n, c.sequence addr = some n → -2 ^ 63 ≤ n ∧ n < 2 ^ 63 - 1

theorem inRange_iff (c : Chain) : c.InRange ↔
    ∀ p ∈ c.accounts.accounts.toList, -2 ^ 63 ≤ p.2.sequence ∧ p.2.sequence < 2 ^ 63 - 1 := by
  constructor
  · rintro h ⟨addr, acc⟩ hmem
    refine h addr acc.sequence ?_
    rw [sequence, AccountStore.getAccount, KVStore.mem_toList.mp hmem]
    rfl
  · intro h addr n hn
    rw [sequence, Option.map_eq_some_iff] at hn
    obtain ⟨acc, hacc, rfl⟩ := hn
    exact h (addr, acc) (KVStore.mem_toList.mpr hacc)

instance (c : Chain) : Decidable c.InRange := decidable_of_iff _ c.inRange_iff.symm

end Chain

/-- What can happen on a chain. -/
inductive Event (Msg : Type)
  /-- The ante handler is run, whatever comes of it. -/
  | ante (tx : StdTx Msg)
  | bank (msg : Bank.Msg)
  /-- A message of the staking or the slashing module, or what these do when a block begins or ends. -/
  | stake (op : Slashing.Op)
  | gov (msg : Gov.Msg)
  | ibc (msg : Ibc.Msg)

variable (env : Env Msg) (chainID : String) (cdc : Ibc.Codec)

/-- The chain after the ante handler has been run. -/
def Chain.afterAnte (c : Chain) (tx : StdTx Msg) : Chain :=
  let s := (runAnteHandler env chainID tx c.anteState).2
  { c.setAccounts s.accounts with collectedFees := s.collectedFees }

/-- One step of the chain. -/
def step (c : Chain) : Event Msg → Outcome Chain
  | .ante tx => .ok (c.afterAnte env chainID tx)
  | .bank msg => do
      let accounts ← Bank.handle c.accounts msg
      return c.setAccounts accounts
  | .stake op => do
      let slashing ← Slashing.step env.address c.slashing op
      return { c with slashing }
  | .gov msg => do
      let s ← Gov.handle c.slashing.ctx.blockHeight ⟨c.accounts, c.gov⟩ msg
      return { c.setAccounts s.accounts with gov := s.store }
  | .ibc msg => do
      let s ← Ibc.handle cdc ⟨c.accounts, c.ibc⟩ msg
      return { c.setAccounts s.accounts with ibc := s.store }

/-- The step runs the ante handler on the transaction, which passes. -/
def Passes (tx : StdTx Msg) (entry : Chain × Event Msg) : Prop :=
  entry.2 = .ante tx ∧ (runAnteHandler env chainID tx entry.1.anteState).1.isOk = true

variable {env chainID cdc} {tx : StdTx Msg} {c c' : Chain} {addr : Address}

/-! ## Messages -/

theorem slashing_step_onlyCoins {address : PubKey → Address} {st st' : Slashing.State}
    {op : Slashing.Op} (h : Slashing.step address st op = .ok st') :
    OnlyCoins st.store.stake.accounts st'.store.stake.accounts := by
  cases Slashing.step_effect h with
  | endBlock => exact .refl _
  | stake hdeliver => exact (Stake.deliver_effect hdeliver).onlyCoins
  | unrevoke _ _ _ hunrevoke => exact .of_eq (Stake.setRevoked_inner hunrevoke).accounts
  | up _ hstake => exact .of_eq (congrArg Stake.Store.accounts hstake)
  | tooOld => exact .refl _
  | down _ _ hslash hrevoke | doubleSign _ hslash hrevoke =>
    exact .of_eq ((Stake.setRevoked_inner hrevoke).accounts.trans
      (Stake.slash_sameOuter hslash).accounts)

variable {event : Event Msg}

theorem step_onlyCoins (h : step env chainID cdc c event = .ok c')
    (hmessage : ∀ tx, event ≠ .ante tx) : OnlyCoins c.accounts c'.accounts := by
  cases event with
  | ante tx => exact absurd rfl (hmessage tx)
  | bank msg =>
    simp only [step, bind_eq_ok, pure_eq_ok] at h
    obtain ⟨accounts, hhandle, rfl⟩ := h
    exact Bank.handle_onlyCoins hhandle
  | stake op =>
    simp only [step, bind_eq_ok, pure_eq_ok] at h
    obtain ⟨slashing, hstep, rfl⟩ := h
    exact slashing_step_onlyCoins hstep
  | gov msg =>
    simp only [step, bind_eq_ok, pure_eq_ok] at h
    obtain ⟨s, hhandle, rfl⟩ := h
    have hcoins := Gov.handle_onlyCoins hhandle
    exact hcoins
  | ibc msg =>
    simp only [step, bind_eq_ok, pure_eq_ok] at h
    obtain ⟨s, hhandle, rfl⟩ := h
    have hcoins := Ibc.handle_onlyCoins hhandle
    exact hcoins

/-! ## Transactions -/

theorem SavedFor.sequence {s s' : AnteState} {sig : StdSignature}
    (h : SavedFor env chainID tx s s' addr sig) :
    (s.accounts.getAccount addr).map Account.sequence = some sig.sequence ∧
      (s'.accounts.getAccount addr).map Account.sequence = some (int64 (sig.sequence + 1)) := by
  obtain ⟨old, acc, coins, pubKey, hold, hsigned, hnew⟩ := h
  rw [hold, hnew, hsigned.saved, hsigned.sequence]
  exact ⟨rfl, rfl⟩

theorem runAnteHandler_saved {s s' : AnteState} {r : Except Stop (List Account × GasMeter)}
    (h : runAnteHandler env chainID tx s = (r, s')) (addr : Address) :
    s'.accounts.getAccount addr = s.accounts.getAccount addr ∨
      ∃ sig, SavedFor env chainID tx s s' addr sig := by
  cases anteHandler_end h with
  | early _ => exact .inl rfl
  | unsaved haccounts _ => exact .inl (by rw [haccounts])
  | saved hwf hentries hpays haccounts _ hsaves _ =>
    obtain ⟨hsaved, hothers⟩ := saved_spec hwf hentries hpays haccounts hsaves
    refine or_iff_not_imp_left.mpr fun hchanged => ?_
    have hmem := not_not.mp (mt (hothers addr) hchanged)
    obtain ⟨⟨addr', sig⟩, hentry, rfl⟩ := List.mem_map.mp hmem
    exact ⟨sig, hsaved _ hentry⟩

theorem int64_succ {n : ℤ} (hlow : -2 ^ 63 ≤ n) (hhigh : n < 2 ^ 63 - 1) : int64 (n + 1) = n + 1 :=
  int64_eq_self (by omega) (by omega)

/-- A signer of a passing transaction had the sequence number of the signature, and has the next. -/
theorem passed_sequence (hrange : c.InRange)
    (hok : (runAnteHandler env chainID tx c.anteState).1.isOk = true) :
    tx.WellFormed env ∧
      (∀ entry ∈ tx.entries env, c.sequence entry.1 = some entry.2.sequence ∧
        (c.afterAnte env chainID tx).sequence entry.1 = some (entry.2.sequence + 1)) ∧
      ∀ other, other ∉ tx.getSigners env →
        (c.afterAnte env chainID tx).sequence other = c.sequence other := by
  cases hresult : runAnteHandler env chainID tx c.anteState with
  | mk r s' =>
    have haccounts : (c.afterAnte env chainID tx).accounts = s'.accounts := by
      rw [Chain.afterAnte, hresult]
      rfl
    rw [hresult] at hok
    cases r with
    | error reason => cases hok
    | ok value =>
      obtain ⟨hwf, hsaved, hothers⟩ := passed_spec hresult
      refine ⟨hwf, fun entry hentry => ?_, fun other hother => ?_⟩
      · obtain ⟨hbefore, hafter⟩ := (hsaved entry hentry).sequence
        obtain ⟨hlow, hhigh⟩ := hrange entry.1 entry.2.sequence hbefore
        rw [int64_succ hlow hhigh] at hafter
        refine ⟨hbefore, ?_⟩
        rw [Chain.sequence, haccounts]
        exact hafter
      · rw [Chain.sequence, haccounts, hothers other hother]
        rfl

/-! ## Sequence numbers along a run -/

/-- An account is there with a sequence number of at least `n`. -/
def AtLeast (addr : Address) (n : ℤ) (c : Chain) : Prop := ∃ n', c.sequence addr = some n' ∧ n ≤ n'

theorem step_atLeast {n : ℤ} (hrange : c.InRange) (h : step env chainID cdc c event = .ok c')
    (hn : AtLeast addr n c) : AtLeast addr n c' := by
  obtain ⟨n', hn', hle⟩ := hn
  by_cases hmessage : ∀ tx, event ≠ .ante tx
  · rw [Chain.sequence, Option.map_eq_some_iff] at hn'
    obtain ⟨acc, hacc, rfl⟩ := hn'
    obtain ⟨coins, hacc'⟩ := step_onlyCoins h hmessage addr acc hacc
    refine ⟨acc.sequence, ?_, hle⟩
    rw [Chain.sequence, hacc']
    rfl
  · push Not at hmessage
    obtain ⟨tx, rfl⟩ := hmessage
    cases h
    rcases runAnteHandler_saved (Prod.eta (runAnteHandler env chainID tx c.anteState)).symm addr with
      hsame | ⟨sig, hsaved⟩
    · refine ⟨n', ?_, hle⟩
      rw [← hn', Chain.sequence, Chain.sequence]
      exact congrArg (Option.map Account.sequence) hsame
    · obtain ⟨hbefore, hafter⟩ := hsaved.sequence
      have heq : some sig.sequence = some n' := hbefore.symm.trans hn'
      cases heq
      obtain ⟨hlow, hhigh⟩ := hrange addr sig.sequence hn'
      rw [int64_succ hlow hhigh] at hafter
      exact ⟨sig.sequence + 1, hafter, by omega⟩

/-- One of the signers has moved on from the sequence number in the signature. -/
def Spent (env : Env Msg) (tx : StdTx Msg) (c : Chain) : Prop :=
  ∃ entry ∈ tx.entries env, AtLeast entry.1 (entry.2.sequence + 1) c

theorem spent_of_passed (hrange : c.InRange)
    (hok : (runAnteHandler env chainID tx c.anteState).1.isOk = true) :
    Spent env tx (c.afterAnte env chainID tx) := by
  obtain ⟨hwf, hsigners, -⟩ := passed_sequence hrange hok
  have hne : tx.entries env ≠ [] := by
    intro hnil
    have hlength := hwf.2.2
    rw [← entries_fst hwf, hnil] at hlength
    exact hwf.1 (List.length_eq_zero_iff.mp hlength)
  obtain ⟨entry, hentry⟩ := List.exists_mem_of_ne_nil _ hne
  exact ⟨entry, hentry, _, (hsigners entry hentry).2, le_rfl⟩

theorem not_ok_of_spent (hrange : c.InRange) (h : Spent env tx c) :
    ¬ (runAnteHandler env chainID tx c.anteState).1.isOk = true := by
  intro hok
  obtain ⟨entry, hentry, n, hn, hle⟩ := h
  obtain ⟨-, hsigners, -⟩ := passed_sequence hrange hok
  have heq := (hsigners entry hentry).1.symm.trans hn
  cases heq
  omega

theorem step_spent (hrange : c.InRange) (h : step env chainID cdc c event = .ok c')
    (hspent : Spent env tx c) : Spent env tx c' := by
  obtain ⟨entry, hentry, hmoved⟩ := hspent
  exact ⟨entry, hentry, step_atLeast hrange h hmoved⟩

section Run

variable {start : Chain} {history : List (Chain × Event Msg)}

theorem run_atLeast (hrun : Run (step env chainID cdc) start history c)
    (hrange : Run.Meets (fun c _ => c.InRange) history) {entry : Chain × Event Msg}
    (hentry : entry ∈ history) {n : ℤ} (hn : entry.1.sequence addr = some n) : AtLeast addr n c :=
  Run.persists (AtLeast addr n) (fun hrange htaken => step_atLeast hrange htaken) hrun hrange hentry
    fun _ htaken => step_atLeast (hrange entry hentry) htaken ⟨n, hn, le_rfl⟩

theorem run_spent (hrun : Run (step env chainID cdc) start history c)
    (hrange : Run.Meets (fun c _ => c.InRange) history) {entry : Chain × Event Msg}
    (hentry : entry ∈ history) (hpass : Passes env chainID tx entry) : Spent env tx c := by
  refine Run.persists (Spent env tx) (fun hrange htaken => step_spent hrange htaken) hrun hrange
    hentry fun c' htaken => ?_
  rw [hpass.1] at htaken
  cases htaken
  exact spent_of_passed (hrange entry hentry) hpass.2

theorem passes_once (hrun : Run (step env chainID cdc) start history c)
    (hrange : Run.Meets (fun c _ => c.InRange) history) (tx : StdTx Msg) :
    history.Pairwise fun entry entry' =>
      ¬ (Passes env chainID tx entry ∧ Passes env chainID tx entry') := by
  induction hrun with
  | nil => exact .nil
  | @snoc history c c' event hrun htaken ih =>
    rw [Run.meets_append] at hrange
    refine List.pairwise_append.mpr ⟨ih hrange.1, List.pairwise_singleton _ _, ?_⟩
    intro entry hentry last hlast
    rw [List.mem_singleton.mp hlast]
    rintro ⟨hpass, -, hok⟩
    exact not_ok_of_spent hrange.2 (run_spent hrun hrange.1 hentry hpass) hok

/-- In every run in which sequence numbers can still be raised, no transaction passes twice, no
sequence number decreases, and a passing transaction raises the sequence number of each of its signers
by one and leaves all others alone. -/
theorem no_replay (hrun : Run (step env chainID cdc) start history c)
    (hrange : Run.Meets (fun c _ => c.InRange) history) :
    (∀ tx, history.Pairwise fun entry entry' =>
      ¬ (Passes env chainID tx entry ∧ Passes env chainID tx entry')) ∧
    (∀ entry ∈ history, ∀ addr n, entry.1.sequence addr = some n →
      ∃ n', c.sequence addr = some n' ∧ n ≤ n') ∧
    ∀ entry ∈ history, ∀ tx, Passes env chainID tx entry →
      ∀ next, step env chainID cdc entry.1 entry.2 = .ok next →
        (∀ addr ∈ tx.getSigners env, ∃ n, entry.1.sequence addr = some n ∧
          next.sequence addr = some (n + 1)) ∧
        ∀ addr, addr ∉ tx.getSigners env → next.sequence addr = entry.1.sequence addr := by
  refine ⟨passes_once hrun hrange, ?_, ?_⟩
  · exact fun entry hentry addr n hn => run_atLeast hrun hrange hentry hn
  · intro entry hentry tx hpass next htaken
    rw [hpass.1] at htaken
    cases htaken
    obtain ⟨hwf, hsigners, hothers⟩ := passed_sequence (hrange entry hentry) hpass.2
    refine ⟨fun addr haddr => ?_, hothers⟩
    obtain ⟨sig, hsig⟩ := exists_entry hwf haddr
    exact ⟨sig.sequence, hsigners (addr, sig) hsig⟩

end Run

/-- A chain with two accounts of ten atoms each. -/
def twoFundedChain : Chain where
  slashing := ⟨⟨1, 0⟩, Stake.emptyStore Stake.defaultParams Stake.initialPool
    twoFunded.accounts, ∅, ∅⟩
  gov := Gov.emptyStore 1
  ibc := ∅
  collectedFees := none

/-- A transaction, messages that move coins of its signers, and the transaction again. -/
def replayed : List (Event (List Address)) :=
  let tx := twoMessages.signedBy "chain" [([1], 0, 0), ([2], 1, 0)]
  [.ante tx, .bank (.send ⟨[⟨[1], [⟨"atom", 2⟩]⟩], [⟨[3], [⟨"atom", 2⟩]⟩]⟩),
    .gov (.submitProposal ⟨"title", "description", 1, [2], [⟨"atom", 1⟩]⟩), .ante tx]

theorem no_replay_replayed :
    let tx := twoMessages.signedBy "chain" [([1], 0, 0), ([2], 1, 0)]
    let history := Run.historyOf (step plainEnv "chain" Ibc.wireCodec) twoFundedChain replayed
    (∃ c, Run (step plainEnv "chain" Ibc.wireCodec) twoFundedChain history c) ∧
      history.length = 4 ∧ (runAnteHandler plainEnv "chain" tx twoFunded).1.isOk = true ∧
      history.Pairwise fun entry entry' =>
        ¬ (Passes plainEnv "chain" tx entry ∧ Passes plainEnv "chain" tx entry') := by
  intro tx history
  obtain ⟨c, hrun, -⟩ := Run.of_leadsTo (step plainEnv "chain" Ibc.wireCodec) twoFundedChain replayed
    (fun _ => true) (by decide +kernel)
  exact ⟨⟨c, hrun⟩, by decide +kernel, by decide +kernel,
    (no_replay hrun (by decide +kernel)).1 tx⟩

end Tepleton.Auth
