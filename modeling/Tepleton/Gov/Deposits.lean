import Tepleton.Gov.Schedule

/-!
# Where the deposits are

Coins that were put down on a proposal are stored until the proposal is decided.  Then they are given
back, or deleted if it was rejected.  A proposal that is dropped because it never got enough is deleted
without a look at its deposits: they stay in the store, belong to nothing and can never be taken out
(`deposits_stranded`).

* `deposits_accounted`: if no proposal with deposits is dropped, every stored deposit belongs to an
  open proposal, the deposits on it are its total, and the coins of each depositer are accounted for.

The books of one block are closed move by move (`BlockMoves.settled`).
-/

namespace Tepleton.Gov

open Lib Auth Bank

/-! ## Sums of deposits -/

/-- The proposal is in its deposit period or its voting period. -/
def TextProposal.Open (p : TextProposal) : Prop :=
  p.status = .depositPeriod ∨ p.status = .votingPeriod

instance (p : TextProposal) : Decidable p.Open := inferInstanceAs (Decidable (_ ∨ _))

/-- What an address holds of a denomination. -/
def State.balance (s : State) (addr : Address) (denom : String) : ℤ :=
  (getCoins s.accounts addr).denomTotal denom

namespace Store

/-- What a deposit holds of a denomination, if its key passes a test. -/
def depositWeight (test : ℤ → Address → Bool) (denom : String) (key : ℤ ×ₗ Address)
    (deposit : Deposit) : ℤ :=
  if test (ofLex key).1 (ofLex key).2 then deposit.amount.denomTotal denom else 0

/-- What is stored of a denomination in the deposits whose keys pass a test. -/
def depositSum (s : Store) (test : ℤ → Address → Bool) (denom : String) : ℤ :=
  KVStore.sumBy (depositWeight test denom) s.deposits

/-- The deposits on a proposal. -/
def depositsOn (s : Store) (id : ℤ) (denom : String) : ℤ :=
  s.depositSum (fun other _ => decide (other = id)) denom

/-- The deposits of a depositer. -/
def depositsOf (s : Store) (addr : Address) (denom : String) : ℤ :=
  s.depositSum (fun _ other => decide (other = addr)) denom

variable {s s' : Store} {test : ℤ → Address → Bool} {denom : String}

theorem depositSum_congr {test' : ℤ → Address → Bool}
    (h : ∀ (id : ℤ) (addr : Address) (deposit : Deposit),
      s.deposits[toLex (id, addr)]? = some deposit → test id addr = test' id addr) :
    s.depositSum test denom = s.depositSum test' denom := by
  rw [depositSum, depositSum, KVStore.sumBy, KVStore.sumBy]
  congr 1
  refine List.map_congr_left fun entry hentry => ?_
  have hstored := KVStore.mem_toList.mp hentry
  rw [depositWeight, depositWeight, h (ofLex entry.1).1 (ofLex entry.1).2 entry.2 hstored]

theorem depositSum_split (part : ℤ → Address → Bool) :
    s.depositSum test denom = s.depositSum (fun id addr => test id addr && part id addr) denom +
      s.depositSum (fun id addr => test id addr && !part id addr) denom := by
  rw [depositSum, depositSum, depositSum, KVStore.sumBy, KVStore.sumBy, KVStore.sumBy,
    ← List.sum_map_add]
  congr 1
  refine List.map_congr_left fun entry _ => ?_
  simp only [depositWeight, Bool.and_eq_true, Bool.not_eq_true']
  by_cases htest : test (ofLex entry.1).1 (ofLex entry.1).2 = true <;>
    by_cases hpart : part (ofLex entry.1).1 (ofLex entry.1).2 = true <;> simp [htest, hpart]

theorem depositSum_eq_zero
    (h : ∀ (id : ℤ) (addr : Address) (deposit : Deposit),
      s.deposits[toLex (id, addr)]? = some deposit → test id addr = false) :
    s.depositSum test denom = 0 := by
  have hnone : s.depositSum test denom = s.depositSum (fun _ _ => false) denom := depositSum_congr h
  rw [hnone, depositSum, KVStore.sumBy]
  simp [depositWeight]

variable {id : ℤ} {addr : Address} {p : TextProposal}

theorem depositSum_setDeposit {deposit : Deposit} :
    (s.setDeposit id addr deposit).depositSum test denom = s.depositSum test denom +
      if test id addr then deposit.amount.denomTotal denom -
        (s.getDeposit id addr).elim 0 (fun old => old.amount.denomTotal denom) else 0 := by
  have hweight : ∀ deposit, depositWeight test denom (toLex (id, addr)) deposit =
      if test id addr then deposit.amount.denomTotal denom else 0 := fun _ => rfl
  rw [depositSum, setDeposit, KVStore.sumBy_insert, depositSum, hweight]
  cases hold : s.getDeposit id addr with
  | none =>
    rw [KVStore.erase_eq_self hold, Option.elim_none, sub_zero, add_comm]
  | some old =>
    rw [KVStore.sumBy_eq_add_erase _ hold, hweight, Option.elim_some]
    split_ifs <;> ring

theorem depositSum_putDeposit {amount : Coins} (h : putDeposit s id addr amount = .ok s') :
    s'.depositSum test denom = s.depositSum test denom +
      if test id addr then amount.denomTotal denom else 0 := by
  obtain ⟨deposit, rfl, hdeposit⟩ := putDeposit_eq_ok h
  rw [depositSum_setDeposit]
  cases hold : s.getDeposit id addr with
  | none =>
    simp only [hold] at hdeposit
    subst hdeposit
    simp
  | some old =>
    simp only [hold] at hdeposit
    obtain ⟨total, htotal, rfl⟩ := hdeposit
    simp only [Option.elim_some, Coins.denomTotal_plus htotal]
    split_ifs <;> ring

/-! ## Deposits and open proposals -/

/-- The total of a proposal that is still open. -/
def openTotal (s : Store) (id : ℤ) : Option Coins :=
  (s.getProposal id).bind fun p => if p.Open then some p.totalDeposit else none

theorem openTotal_of_getProposal (hp : s.getProposal id = some p) (hopen : p.Open) : s.openTotal id
    = some p.totalDeposit := by
  rw [openTotal, hp, Option.bind_some, if_pos hopen]

theorem openTotal_eq_some {total : Coins} (h : s.openTotal id = some total) :
    ∃ p, s.getProposal id = some p ∧ p.Open ∧ p.totalDeposit = total := by
  obtain ⟨p, hp, hsome⟩ := Option.bind_eq_some_iff.mp h
  split_ifs at hsome with hopen
  exact ⟨p, hp, hopen, Option.some.inj hsome⟩

theorem openTotal_congr (h : s'.getProposal id = s.getProposal id) :
    s'.openTotal id = s.openTotal id := by
  rw [openTotal, h, openTotal]

theorem openTotal_setProposal (hopen : p.Open) (id : ℤ) :
    (s.setProposal p).openTotal id =
      if p.proposalID = id then some p.totalDeposit else s.openTotal id := by
  have hget := getProposal_setProposal s p id
  split_ifs at hget ⊢ with hid
  · exact openTotal_of_getProposal hget hopen
  · exact openTotal_congr hget

@[simp] theorem openTotal_setDeposit (s : Store) (id other : ℤ) (addr : Address) (deposit : Deposit) :
    (s.setDeposit id addr deposit).openTotal other = s.openTotal other := rfl

/-- Every deposit names its depositer and belongs to an open proposal, and the deposits on an open
proposal are its total. -/
structure Backed (s : Store) : Prop where
  depositer (id : ℤ) (addr : Address) (deposit : Deposit)
    (h : s.deposits[toLex (id, addr)]? = some deposit) : deposit.depositer = addr
  owned (id : ℤ) (addr : Address) (deposit : Deposit)
    (h : s.deposits[toLex (id, addr)]? = some deposit) : ∃ total, s.openTotal id = some total
  total (id : ℤ) (total : Coins) (h : s.openTotal id = some total) (denom : String) :
    s.depositsOn id denom = total.denomTotal denom

theorem Backed.of_eq (h : s.Backed) (hdeposits : s'.deposits = s.deposits)
    (hopen : ∀ id, s'.openTotal id = s.openTotal id) : s'.Backed where
  depositer id addr deposit hd := h.depositer id addr deposit (by rwa [hdeposits] at hd)
  owned id addr deposit hd := by
    rw [hopen]
    exact h.owned id addr deposit (by rwa [hdeposits] at hd)
  total id total ht denom := by
    rw [hopen] at ht
    rw [depositsOn, depositSum, hdeposits]
    exact h.total id total ht denom

theorem Backed.depositsOn_eq_zero (h : s.Backed) (hclosed : s.openTotal id = none) (denom : String)
    : s.depositsOn id denom = 0 := by
  refine depositSum_eq_zero fun other addr deposit hd => ?_
  rw [decide_eq_false_iff_not]
  rintro rfl
  obtain ⟨total, htotal⟩ := h.owned other addr deposit hd
  rw [hclosed] at htotal
  cases htotal

theorem Backed.setProposal_new (h : s.Backed) (hnone : s.getProposal p.proposalID = none)
    (hopen : p.Open) (htotal : p.totalDeposit = []) : (s.setProposal p).Backed := by
  have hset := fun id => openTotal_setProposal (s := s) hopen id
  refine ⟨h.depositer, ?_, ?_⟩
  · intro id addr deposit hd
    rw [hset]
    split_ifs
    · exact ⟨_, rfl⟩
    · exact h.owned id addr deposit hd
  · intro id total ht denom
    rw [hset] at ht
    split_ifs at ht with hid
    · subst hid
      rw [htotal] at ht
      cases ht
      exact h.depositsOn_eq_zero (by rw [openTotal, hnone, Option.bind_none]) denom
    · exact h.total id total ht denom

/-- A deposit is added to the total of its proposal. -/
theorem Backed.putDeposit {amount total : Coins} (h : s.Backed)
    (hp : s.getProposal p.proposalID = some p) (hopen : p.Open)
    (htotal : p.totalDeposit.plus amount = .ok total)
    (hput : Gov.putDeposit (s.setProposal { p with totalDeposit := total }) p.proposalID addr amount =
      .ok s') : s'.Backed := by
  have hsum : ∀ test denom, s'.depositSum test denom = s.depositSum test denom +
      if test p.proposalID addr then amount.denomTotal denom else 0 :=
    fun _ _ => (depositSum_putDeposit hput).trans rfl
  obtain ⟨deposit, rfl, hdeposit⟩ := putDeposit_eq_ok hput
  have hset := fun id => openTotal_setProposal (s := s)
    (show TextProposal.Open { p with totalDeposit := total } from hopen) id
  have hnew : deposit.depositer = addr := by
    cases hold : (s.setProposal { p with totalDeposit := total }).getDeposit p.proposalID addr with
    | none =>
      simp only [hold] at hdeposit
      rw [hdeposit]
    | some old =>
      simp only [hold] at hdeposit
      obtain ⟨_, -, rfl⟩ := hdeposit
      exact h.depositer p.proposalID addr old hold
  refine ⟨?_, ?_, ?_⟩
  · intro id other stored hstored
    rw [setDeposit, KVStore.getElem?_insert] at hstored
    split_ifs at hstored with hkey
    · obtain ⟨rfl, rfl⟩ := Prod.mk.inj (toLex.injective hkey)
      cases hstored
      exact hnew
    · exact h.depositer id other stored hstored
  · intro id other stored hstored
    rw [openTotal_setDeposit, hset]
    split_ifs with hid
    · exact ⟨total, rfl⟩
    · rw [setDeposit, KVStore.getElem?_insert,
        if_neg fun heq => hid (Prod.mk.inj (toLex.injective heq)).1] at hstored
      exact h.owned id other stored hstored
  · intro id total' ht denom
    rw [openTotal_setDeposit, hset] at ht
    rw [depositsOn, hsum, ← depositsOn]
    split_ifs at ht with hid
    · cases ht
      subst hid
      rw [h.total p.proposalID _ (openTotal_of_getProposal hp hopen), Coins.denomTotal_plus htotal]
      simp
    · rw [h.total id total' ht]
      simp [hid]

end Store

open Tepleton.Gov.Store

variable {height : ℤ} {s s' : State}

theorem Proposed.backed (h : s.store.Backed) (hproposed : Proposed height s s')
    (hfresh : s.store.FreshID) : s'.store.Backed := by
  obtain @⟨p, hnext, hstatus, htotal, -⟩ := hproposed
  have hcounted : Store.Backed { s.store with nextProposalID := some (int64 (p.proposalID + 1)) } :=
    h.of_eq rfl fun _ => rfl
  have hnew := hcounted.setProposal_new (hfresh p.proposalID hnext) (.inl hstatus) htotal
  exact hnew.of_eq rfl fun _ => rfl

theorem MessageMove.backed {coins : Coins} (hkeyed : s.store.Keyed) (h : s.store.Backed)
    (hmove : MessageMove height coins s s') : s'.store.Backed := by
  cases hmove with
  | @deposit id p addr total accounts store enough hp hopen haccounts htotal hput henough =>
    obtain rfl := hkeyed.proposals id p hp
    have hbacked := h.putDeposit hp hopen htotal hput
    cases enough with
    | false => exact hbacked
    | true =>
      -- the activation stores the proposal once more, with the same total
      obtain ⟨deposit, rfl, -⟩ := putDeposit_eq_ok hput
      refine hbacked.of_eq rfl fun id => ?_
      have hfirst := openTotal_setProposal (s := s.store)
        (show TextProposal.Open { p with totalDeposit := total } from hopen) id
      refine (openTotal_setProposal (.inr rfl) id).trans ?_
      split_ifs at hfirst ⊢ with hid
      · exact hfirst.symm
      · rfl
  | vote => exact h.of_eq rfl fun _ => rfl

/-! ## The end of a block -/

/-- No proposal is dropped at this height. -/
def Store.NoneDropped (s : Store) (height : ℤ) : Prop :=
  ∀ entry ∈ s.proposals.toList,
    entry.2.status = .depositPeriod → entry.2.depositEnded height = false

instance (s : Store) (height : ℤ) : Decidable (s.NoneDropped height) :=
  inferInstanceAs (Decidable (∀ entry ∈ _, _))

theorem Store.noneDropped_iff {s : Store} : s.NoneDropped height ↔
    ∀ id p, s.getProposal id = some p → p.status = .depositPeriod → p.depositEnded height = false := by
  constructor
  · exact fun h id p hp => h (id, p) (KVStore.mem_toList.mpr hp)
  · exact fun h entry hentry => h entry.1 entry.2 (KVStore.mem_toList.mp hentry)

namespace Store

/-- The status of a proposal. -/
def statusOf (s : Store) (id : ℤ) : Option VoteStatus := (s.getProposal id).map TextProposal.status

variable {s s' : Store}

theorem getProposal_decided (s : Store) (p : TextProposal) (passes : Bool) (id : ℤ) :
    (s.decided p passes).getProposal id =
      if p.proposalID = id then some { p with status := if passes then .passed else .rejected }
      else s.getProposal id := by
  rw [decided, getProposal_setProposal, deleteDeposits_eq, deleteVotes_eq]
  rfl

theorem getElem?_decided (s : Store) (p : TextProposal) (passes : Bool) (id : ℤ) (addr : Address) :
    (s.decided p passes).deposits[toLex (id, addr)]? =
      if id = p.proposalID then none else s.deposits[toLex (id, addr)]? := by
  have hdelete := getElem?_deleteDeposits (s.deleteVotes p.proposalID) p.proposalID (toLex (id, addr))
  refine hdelete.trans ?_
  rw [deleteVotes_eq]
  rfl

theorem statusOf_decided (s : Store) (p : TextProposal) (passes : Bool) (id : ℤ) :
    (s.decided p passes).statusOf id =
      if p.proposalID = id then some (if passes then .passed else .rejected) else s.statusOf id := by
  rw [statusOf, getProposal_decided]
  split_ifs <;> rfl

theorem openTotal_decided (s : Store) (p : TextProposal) (passes : Bool) (id : ℤ) :
    (s.decided p passes).openTotal id = if p.proposalID = id then none else s.openTotal id := by
  split_ifs with hid
  · rw [openTotal, getProposal_decided, if_pos hid, Option.bind_some]
    cases passes <;> simp [TextProposal.Open]
  · apply openTotal_congr
    rw [getProposal_decided, if_neg hid]

theorem statusOf_of_openTotal {id : ℤ} {total : Coins} (h : s.openTotal id = some total) :
    s.statusOf id = some .depositPeriod ∨ s.statusOf id = some .votingPeriod := by
  obtain ⟨p, hp, hopen, -⟩ := openTotal_eq_some h
  simpa [statusOf, hp, TextProposal.Open] using hopen

theorem openTotal_of_statusOf {id : ℤ}
    (h : s.statusOf id = some .depositPeriod ∨ s.statusOf id = some .votingPeriod) :
    ∃ total, s.openTotal id = some total := by
  cases hp : s.getProposal id with
  | none => simp [statusOf, hp] at h
  | some p => exact ⟨_, openTotal_of_getProposal hp (by simpa [statusOf, hp, TextProposal.Open] using h)⟩

end Store

/-- The deposits of an address on proposals with a status in a later store. -/
def Store.depositsWith (s later : Store) (status : VoteStatus) (addr : Address) (denom : String) : ℤ :=
  s.depositSum (fun id other => decide (other = addr) && decide (later.statusOf id = some status)) denom

/-- What became of the deposits of `s` in a part of a block: those on proposals that are still open are
still there, those on proposals that have passed were given back, and no proposal was dropped. -/
structure Settled (s s' : State) : Prop where
  still_open (id : ℤ) (total : Coins) (h : s'.store.openTotal id = some total) :
    s.store.openTotal id = some total
  deposits (id : ℤ) (addr : Address) : s'.store.deposits[toLex (id, addr)]? =
    if (s'.store.openTotal id).isSome then s.store.deposits[toLex (id, addr)]? else none
  kept (id : ℤ) (h : s.store.statusOf id ≠ none) : s'.store.statusOf id ≠ none
  refunded (addr : Address) (denom : String) : s'.balance addr denom =
    s.balance addr denom + s.store.depositsWith s'.store .passed addr denom

/-- What the deposits on a proposal are worth to an address. -/
theorem received_refundOf {s : Store} (id : ℤ) (addr : Address) (denom : String)
    (hnamed : ∀ (other : Address) (deposit : Deposit),
      s.deposits[toLex (id, other)]? = some deposit → deposit.depositer = other) :
    received given ((s.getDeposits id).map refundOf) addr denom =
      s.depositSum (fun other owner => decide (owner = addr) && decide (other = id)) denom := by
  rw [received, Store.getDeposits, List.map_map, depositSum, KVStore.sumBy]
  generalize hentries : s.deposits.toList = entries
  have hstored : ∀ entry ∈ entries, (ofLex entry.1).1 = id →
      entry.2.depositer = (ofLex entry.1).2 := by
    rintro ⟨key, deposit⟩ hentry rfl
    exact hnamed _ deposit (KVStore.mem_toList.mp (hentries ▸ hentry))
  clear hentries
  induction entries with
  | nil => rfl
  | cons entry entries ih =>
    have ih := ih fun entry hentry => hstored entry (List.mem_cons_of_mem _ hentry)
    have hhead := hstored entry List.mem_cons_self
    rw [List.filter_cons, List.map_cons, List.sum_cons]
    split_ifs with hid
    · have hid := of_decide_eq_true hid
      rw [List.map_cons, List.sum_cons, ih]
      simp [refundOf, given, depositWeight, hid, hhead hid]
    · have hid := of_decide_eq_false (Bool.eq_false_of_not_eq_true hid)
      rw [ih]
      simp [depositWeight, hid]

namespace Settled

theorem refl (h : s.store.Backed) : Settled s s where
  still_open _ _ ht := ht
  deposits id addr := by
    split_ifs with hopen
    · rfl
    · by_contra hne
      obtain ⟨deposit, hd⟩ := Option.ne_none_iff_exists'.mp hne
      obtain ⟨total, htotal⟩ := h.owned id addr deposit hd
      simp [htotal] at hopen
  kept _ hstatus := hstatus
  refunded addr denom := by
    have hzero : s.store.depositsWith s.store .passed addr denom = 0 := by
      refine depositSum_eq_zero fun id other deposit hd => ?_
      obtain ⟨total, htotal⟩ := h.owned id other deposit hd
      rcases statusOf_of_openTotal htotal with hstatus | hstatus <;> simp [hstatus]
    rw [hzero, add_zero]

theorem depositSum (h : Settled s s') (test : ℤ → Address → Bool) (denom : String) :
    s'.store.depositSum test denom =
      s.store.depositSum (fun id addr => test id addr && (s'.store.openTotal id).isSome) denom := by
  have hclosed := KVStore.sumBy_of_getElem? (depositWeight test denom) (t := s.store.deposits)
    (fun key => (s'.store.openTotal (ofLex key).1).isNone) fun key =>
      (h.deposits (ofLex key).1 (ofLex key).2).trans (by
        cases s'.store.openTotal (ofLex key).1 <;> simp)
  rw [Store.depositSum, hclosed, Store.depositSum]
  congr 1
  funext key deposit
  cases hopen : s'.store.openTotal (ofLex key).1 <;> simp [depositWeight, hopen]

theorem of_eq {s'' : State} (h : Settled s s') (hproposals : s''.store.proposals = s'.store.proposals)
    (hdeposits : s''.store.deposits = s'.store.deposits) (haccounts : s''.accounts = s'.accounts) :
    Settled s s'' := by
  have hopen : s''.store.openTotal = s'.store.openTotal := by
    funext id
    rw [openTotal, openTotal, getProposal, getProposal, hproposals]
  have hstatus : s''.store.statusOf = s'.store.statusOf := by
    funext id
    rw [statusOf, statusOf, getProposal, getProposal, hproposals]
  refine ⟨?_, ?_, ?_, ?_⟩
  · rw [hopen]
    exact h.still_open
  · rw [hopen, hdeposits]
    exact h.deposits
  · rw [hstatus]
    exact h.kept
  · intro addr denom
    rw [State.balance, haccounts, depositsWith, hstatus]
    exact h.refunded addr denom

theorem decide {p : TextProposal} {accounts : AccountStore} {rest : List ℤ} (passes : Bool)
    (hbacked : s.store.Backed) (h : Settled s s')
    (hvoting : s'.store.statusOf p.proposalID = some .votingPeriod)
    (hrefund : if passes then
        payBack s'.accounts (s'.store.getDeposits p.proposalID) = .ok accounts
      else accounts = s'.accounts) :
    Settled s ⟨accounts, { s'.store with activeProposalQueue := rest }.decided p passes⟩ := by
  obtain ⟨total, htotal⟩ := openTotal_of_statusOf (.inr hvoting)
  have hopen := openTotal_decided { s'.store with activeProposalQueue := rest } p passes
  have hstatus := statusOf_decided { s'.store with activeProposalQueue := rest } p passes
  refine ⟨?_, ?_, ?_, ?_⟩
  · intro id total' ht
    rw [hopen] at ht
    split_ifs at ht
    exact h.still_open id total' ht
  · intro id addr
    rw [getElem?_decided, hopen]
    by_cases hid : id = p.proposalID
    · simp [hid]
    · rw [if_neg hid, if_neg (Ne.symm hid)]
      exact h.deposits id addr
  · intro id hsome
    rw [hstatus]
    by_cases hid : p.proposalID = id
    · rw [if_pos hid]
      exact Option.some_ne_none _
    · rw [if_neg hid]
      exact h.kept id hsome
  · intro addr denom
    have hbefore : ∀ id, s'.store.statusOf id = some .passed → id ≠ p.proposalID := by
      rintro id hid rfl
      rw [hvoting] at hid
      cases hid
    have hsame : ∀ id, id ≠ p.proposalID →
        Store.statusOf ({ s'.store with activeProposalQueue := rest }.decided p passes) id =
          s'.store.statusOf id := fun id hid => (hstatus id).trans (if_neg (Ne.symm hid))
    cases passes with
    | false =>
      have hkept : s.store.depositsWith
          ({ s'.store with activeProposalQueue := rest }.decided p false) .passed addr denom =
            s.store.depositsWith s'.store .passed addr denom := by
        refine depositSum_congr fun id other _ _ => ?_
        by_cases hid : id = p.proposalID
        · subst hid
          rw [hstatus, if_pos rfl, hvoting]
          simp
        · rw [hsame id hid]
      rw [hkept, ← h.refunded addr denom]
      exact congrArg (fun am => (getCoins am addr).denomTotal denom) hrefund
    | true =>
      -- what is given back now is what `s` has stored for this proposal
      have hnow : received given ((s'.store.getDeposits p.proposalID).map refundOf) addr denom =
          s.store.depositSum (fun id other => Decidable.decide (other = addr) &&
            Decidable.decide (id = p.proposalID)) denom := by
        rw [received_refundOf, h.depositSum]
        · refine depositSum_congr fun id other _ _ => ?_
          by_cases hid : id = p.proposalID
          · simp [hid, htotal]
          · simp [hid]
        · intro other deposit hd
          rw [h.deposits, htotal] at hd
          exact hbacked.depositer _ other deposit hd
      have hsplit : s.store.depositsWith
          ({ s'.store with activeProposalQueue := rest }.decided p true) .passed addr denom =
            s.store.depositsWith s'.store .passed addr denom + s.store.depositSum
              (fun id other => Decidable.decide (other = addr) &&
                Decidable.decide (id = p.proposalID)) denom := by
        rw [depositsWith, depositSum_split fun id _ => Decidable.decide (id = p.proposalID), add_comm]
        congr 1
        · refine depositSum_congr fun id other _ _ => ?_
          by_cases hid : id = p.proposalID
          · subst hid
            simp [hvoting]
          · rw [hsame id hid]
            simp [hid]
        · refine depositSum_congr fun id other _ _ => ?_
          by_cases hid : id = p.proposalID
          · subst hid
            rw [hstatus, if_pos rfl]
            simp
          · simp [hid]
      rw [hsplit, ← add_assoc, ← h.refunded, ← hnow]
      exact (moved_of_payBack hrefund).balance addr denom

theorem backed (hbacked : s.store.Backed) (h : Settled s s') : s'.store.Backed where
  depositer id addr deposit hd := by
    rw [h.deposits] at hd
    split_ifs at hd
    exact hbacked.depositer id addr deposit hd
  owned id addr deposit hd := by
    rw [h.deposits] at hd
    split_ifs at hd with hopen
    exact Option.isSome_iff_exists.mp hopen
  total id total ht denom := by
    rw [← hbacked.total id total (h.still_open id total ht), depositsOn, h.depositSum]
    refine depositSum_congr fun other addr _ _ => ?_
    by_cases hid : other = id
    · simp [hid, ht]
    · simp [hid]

/-- The deposits of an address are still there, were given back, or were on proposals that have been
rejected. -/
theorem depositsOf (hbacked : s.store.Backed) (h : Settled s s') (addr : Address) (denom : String) :
    s.store.depositsOf addr denom = s'.store.depositsOf addr denom +
      (s'.balance addr denom - s.balance addr denom) +
        s.store.depositsWith s'.store .rejected addr denom := by
  rw [h.refunded, add_sub_cancel_left]
  have hleft : s'.store.depositsOf addr denom = s.store.depositSum (fun id other =>
      Decidable.decide (other = addr) && (s'.store.openTotal id).isSome) denom := h.depositSum _ denom
  rw [hleft, Store.depositsOf, depositSum_split fun id _ => (s'.store.openTotal id).isSome, add_assoc]
  congr 1
  -- a proposal that is neither open nor gone has passed or was rejected
  have hdecided : ∀ {id : ℤ} {other : Address} {deposit : Deposit},
      s.store.deposits[toLex (id, other)]? = some deposit → s'.store.openTotal id = none →
        s'.store.statusOf id = some .passed ∨ s'.store.statusOf id = some .rejected := by
    intro id other deposit hd hclosed
    obtain ⟨total, htotal⟩ := hbacked.owned id other deposit hd
    have hsome : s.store.statusOf id ≠ none := by
      rcases statusOf_of_openTotal htotal with hstatus | hstatus <;> simp [hstatus]
    have hnot : ¬ ∃ total, s'.store.openTotal id = some total := by simp [hclosed]
    have hnot := mt openTotal_of_statusOf hnot
    cases hstatus : s'.store.statusOf id with
    | none => exact absurd hstatus (h.kept id hsome)
    | some status => cases status <;> simp_all
  have hopen : ∀ {id : ℤ} {status : VoteStatus}, s'.store.statusOf id = some status →
      status = .passed ∨ status = .rejected → s'.store.openTotal id = none := by
    rintro id status hstatus hfinal
    by_contra hne
    obtain ⟨total, htotal⟩ := Option.ne_none_iff_exists'.mp hne
    rcases statusOf_of_openTotal htotal with hother | hother <;>
      · rw [hother, Option.some.injEq] at hstatus
        subst hstatus
        simp at hfinal
  refine (depositSum_split fun id _ =>
    Decidable.decide (s'.store.statusOf id = some .passed)).trans ?_
  congr 1
  · refine depositSum_congr fun id other deposit hd => ?_
    by_cases hstatus : s'.store.statusOf id = some .passed
    · simp [hstatus, hopen hstatus (.inl rfl)]
    · simp [hstatus]
  · refine depositSum_congr fun id other deposit hd => ?_
    by_cases hstatus : s'.store.statusOf id = some .rejected
    · simp [hstatus, hopen hstatus (.inr rfl)]
    · cases hclosed : s'.store.openTotal id with
      | some total => simp [hstatus]
      | none =>
        rcases hdecided hd hclosed with hpassed | hrejected
        · simp [hpassed]
        · exact absurd hrejected hstatus

end Settled

/-- The books of one block, if no proposal is dropped in it. -/
theorem BlockMoves.settled (hkeyed : s.store.Keyed) (horderly : s.store.agenda.Orderly height)
    (hlow : -2 ^ 63 ≤ height) (hbacked : s.store.Backed) (hnone : s.store.NoneDropped height)
    (hmoves : BlockMoves height s s') : Settled s s' := by
  have hall : Settled s s' ∧ s'.store.NoneDropped height := by
    induction hmoves with
    | refl => exact ⟨.refl hbacked, hnone⟩
    | @tail middle s' hmoves hmove ih =>
      obtain ⟨hsettled, hnone⟩ := ih
      obtain ⟨hkeyed, hsteps, -⟩ := (BlockMoves.moves hmoves).agenda hkeyed
      obtain ⟨horderly, -⟩ := horderly.steps hlow hsteps
      rw [noneDropped_iff] at hnone ⊢
      cases hmove with
      | @drop front rest p hqueue hp hstatus hended =>
        rw [hnone front p hp hstatus] at hended
        cases hended
      | @skip front rest p hqueue hp hstatus => exact ⟨hsettled.of_eq rfl rfl rfl, hnone⟩
      | @decide front rest p accounts passes hqueue hp hended hrefund =>
        obtain rfl := hkeyed.proposals front p hp
        obtain ⟨item, hitem, hvoting⟩ := horderly.active_voting p.proposalID (by
          have hmem : p.proposalID ∈ middle.store.activeProposalQueue := by simp [hqueue]
          exact hmem)
        have hstatus : middle.store.statusOf p.proposalID = some .votingPeriod := by
          rw [item_of_getProposal hp, Option.some.injEq] at hitem
          subst hitem
          rw [statusOf, hp]
          exact congrArg some hvoting
        refine ⟨hsettled.decide passes hbacked hstatus hrefund, fun id q hq hdeposit => ?_⟩
        have hget := getProposal_decided { middle.store with activeProposalQueue := rest } p passes
          id
        by_cases hid : p.proposalID = id
        · rw [if_pos hid] at hget
          cases hget.symm.trans hq
          cases passes <;> cases hdeposit
        · rw [if_neg hid] at hget
          exact hnone id q (hget.symm.trans hq) hdeposit
  exact hall.1

/-! ## Runs -/

theorem Proposed.balances (hproposed : Proposed height s s') (addr : Address) (denom : String) :
    s'.store.depositsOf addr denom + s'.balance addr denom =
      s.store.depositsOf addr denom + s.balance addr denom := by
  obtain ⟨-, -, -, -⟩ := hproposed
  rfl

/-- A message turns what it takes into deposits. -/
theorem MessageMove.balances {coins : Coins} (hmove : MessageMove height coins s s') (addr : Address)
    (denom : String) :
    s'.store.depositsOf addr denom + s'.balance addr denom =
      s.store.depositsOf addr denom + s.balance addr denom := by
  cases hmove with
  | @deposit id p other total accounts store enough hp hopen haccounts htotal hput henough =>
    have hsum : store.depositsOf addr denom = s.store.depositsOf addr denom +
        if decide (other = addr) then coins.denomTotal denom else 0 :=
      (depositSum_putDeposit hput).trans rfl
    have hmoved : Moved Bank.taken [⟨other, coins⟩] s.accounts accounts :=
      moved_of_subtractCoins haccounts
    have hbalance := hmoved.balance addr denom
    have hsame : Store.depositsOf (if enough then
        store.activateVotingPeriod height { p with totalDeposit := total } else store) addr denom =
          store.depositsOf addr denom := by
      cases enough <;> rfl
    simp only [received, List.map_cons, List.map_nil, List.sum_cons, List.sum_nil, add_zero,
      Bank.taken] at hbalance
    rw [hsame, hsum, State.balance, hbalance, State.balance]
    by_cases hother : other = addr
    · simp only [hother, decide_true, if_true]
      ring
    · simp only [hother, decide_false, Bool.false_eq_true, if_false]
      ring
  | vote => rfl

/-- What the events of a run amount to. -/
def overRun (amount : Chain → Event → Chain → ℤ) (history : List (Chain × Event)) : ℤ :=
  (history.map fun entry =>
    match step entry.1 entry.2 with
    | .ok c' => amount entry.1 entry.2 c'
    | .error _ => 0).sum

/-- What a message takes from an account. -/
def takenFrom (addr : Address) (denom : String) (c : Chain) (event : Event) (c' : Chain) : ℤ :=
  match event with
  | .deliver _ _ => c.state.balance addr denom - c'.state.balance addr denom
  | .endBlock _ _ _ => 0

/-- What the end of a block gives back to an account. -/
def refundedTo (addr : Address) (denom : String) (c : Chain) (event : Event) (c' : Chain) : ℤ :=
  match event with
  | .deliver _ _ => 0
  | .endBlock _ _ _ => c'.state.balance addr denom - c.state.balance addr denom

/-- What the end of a block deletes with the proposals it rejects. -/
def removedFrom (addr : Address) (denom : String) (c : Chain) (event : Event) (c' : Chain) : ℤ :=
  match event with
  | .deliver _ _ => 0
  | .endBlock _ _ _ => c.state.store.depositsWith c'.state.store .rejected addr denom

theorem overRun_snoc {amount : Chain → Event → Chain → ℤ} {history : List (Chain × Event)}
    {c c' : Chain} {event : Event} (hstep : step c event = .ok c') :
    overRun amount (history ++ [(c, event)]) = overRun amount history + amount c event c' := by
  simp [overRun, hstep]

/-- A submission does not reuse an id, and no proposal is dropped at the end of a block. -/
def Event.Careful (c : Chain) : Event → Prop
  | .deliver height msg => (Event.deliver height msg).submits = true → c.state.store.FreshID
  | .endBlock height _ _ => c.state.store.NoneDropped height

instance (c : Chain) (event : Event) : Decidable (event.Careful c) :=
  match event with
  | .deliver _ _ => inferInstanceAs (Decidable (_ → _))
  | .endBlock height _ _ => inferInstanceAs (Decidable (c.state.store.NoneDropped height))

/-- One event keeps the books. -/
theorem step_backed {c c' : Chain} {event : Event} (hkeyed : c.state.store.Keyed)
    (horderly : c.state.store.agenda.Orderly c.height) (hbacked : c.state.store.Backed)
    (htimely : event.Timely c) (hcareful : event.Careful c) (hstep : step c event = .ok c') :
    c'.state.store.Backed ∧ ∀ addr denom,
      c.state.store.depositsOf addr denom + takenFrom addr denom c event c' =
        refundedTo addr denom c event c' + c'.state.store.depositsOf addr denom +
          removedFrom addr denom c event c' := by
  cases event with
  | deliver height msg =>
    simp only [step, bind_eq_ok, pure_eq_ok] at hstep
    obtain ⟨-, -, state, hhandle, rfl⟩ := hstep
    have hmoves := handle_moves hhandle
    split_ifs at hmoves with hsubmits
    · obtain ⟨s₁, hproposed, hmove⟩ := hmoves
      have hfresh := hcareful hsubmits
      refine ⟨hmove.backed (hproposed.agenda hkeyed hfresh).1 (hproposed.backed hbacked hfresh), ?_⟩
      intro addr denom
      have hfirst := hproposed.balances addr denom
      have hsecond := hmove.balances addr denom
      simp only [takenFrom, refundedTo, removedFrom]
      omega
    · refine ⟨hmoves.backed hkeyed hbacked, fun addr denom => ?_⟩
      have hmove := hmoves.balances addr denom
      simp only [takenFrom, refundedTo, removedFrom]
      omega
  | endBlock height staking order =>
    simp only [step, bind_eq_ok, pure_eq_ok] at hstep
    obtain ⟨e, hend, rfl⟩ := hstep
    obtain ⟨middle, hbefore, -, hafter, -⟩ := endBlocker_moves hend
    have hsettled := BlockMoves.settled hkeyed (horderly.later htimely.1) htimely.2.1 hbacked
      hcareful (hbefore.trans hafter)
    refine ⟨hsettled.backed hbacked, fun addr denom => ?_⟩
    have hbooks := hsettled.depositsOf hbacked addr denom
    simp only [takenFrom, refundedTo, removedFrom]
    omega

theorem orderly_newChain (height start : ℤ) (accounts : AccountStore) :
    (newChain height start accounts).state.store.Keyed ∧
      (newChain height start accounts).state.store.agenda.Orderly height := by
  have hzero : Scheduled 0 0 (newChain height 0 accounts) :=
    scheduled_newChain (by norm_num) (by norm_num)
  exact ⟨hzero.keyed.of_eq rfl rfl, hzero.orderly⟩

/-- If no id is reused and no proposal dropped, every stored deposit belongs to an open proposal, the
deposits on an open proposal are its total, and what was taken from a depositer is what was given back,
what is stored, and what was deleted with rejected proposals. -/
theorem deposits_accounted {height start : ℤ} {accounts : AccountStore}
    {history : List (Chain × Event)} {c : Chain}
    (hrun : Run step (newChain height start accounts) history c)
    (htimely : Run.Meets (fun c event => event.Timely c) history)
    (hcareful : Run.Meets (fun c event => event.Careful c) history) :
    (∀ (id : ℤ) (addr : Address) (deposit : Deposit),
        c.state.store.deposits[toLex (id, addr)]? = some deposit →
          ∃ p, c.state.store.getProposal id = some p ∧ p.Open) ∧
      (∀ (id : ℤ) (p : TextProposal), c.state.store.getProposal id = some p → p.Open → ∀ denom,
        c.state.store.depositsOn id denom = p.totalDeposit.denomTotal denom) ∧
      ∀ addr denom, overRun (takenFrom addr denom) history =
        overRun (refundedTo addr denom) history + c.state.store.depositsOf addr denom +
          overRun (removedFrom addr denom) history := by
  have hall : c.state.store.Keyed ∧ c.state.store.agenda.Orderly c.height ∧ c.state.store.Backed ∧
      ∀ addr denom, overRun (takenFrom addr denom) history =
        overRun (refundedTo addr denom) history + c.state.store.depositsOf addr denom +
          overRun (removedFrom addr denom) history := by
    induction hrun with
    | nil =>
      obtain ⟨hkeyed, horderly⟩ := orderly_newChain height start accounts
      refine ⟨hkeyed, horderly, ⟨?_, ?_, ?_⟩, fun _ _ => rfl⟩
      · intro id addr deposit hd
        simp [newChain, emptyStore] at hd
      · intro id addr deposit hd
        simp [newChain, emptyStore] at hd
      · intro id total ht
        simp [openTotal, getProposal, newChain, emptyStore] at ht
    | @snoc history c c' event hrun hstep ih =>
      rw [Run.meets_append] at htimely hcareful
      obtain ⟨hkeyed, horderly, hbacked, hbooks⟩ := ih htimely.1 hcareful.1
      have hfresh : event.submits = true → c.state.store.FreshID := by
        intro hsubmits
        cases event with
        | deliver height msg => exact hcareful.2 hsubmits
        | endBlock height staking order => cases hsubmits
      obtain ⟨hkeyed', horderly', -⟩ := step_orderly hkeyed horderly htimely.2 hfresh hstep
      obtain ⟨hbacked', hlast⟩ := step_backed hkeyed horderly hbacked htimely.2 hcareful.2 hstep
      refine ⟨hkeyed', horderly', hbacked', fun addr denom => ?_⟩
      rw [overRun_snoc hstep, overRun_snoc hstep, overRun_snoc hstep]
      have hbefore := hbooks addr denom
      have hnow := hlast addr denom
      omega
  obtain ⟨-, -, hbacked, hbooks⟩ := hall
  refine ⟨fun id addr deposit hd => ?_, fun id p hp hopen denom => ?_, hbooks⟩
  · obtain ⟨total, htotal⟩ := hbacked.owned id addr deposit hd
    obtain ⟨p, hp, hopen, -⟩ := openTotal_eq_some htotal
    exact ⟨p, hp, hopen⟩
  · exact hbacked.total id _ (openTotal_of_getProposal hp hopen) denom

/-- One proposal is rejected, with ten coins on it, and three are still on the other one. -/
theorem deposits_accounted_twoProposals :
    ∃ history c, Run step (newChain 0 1 proposerAccounts) history c ∧
      overRun (takenFrom [1] "steak") history = 13 ∧ overRun (refundedTo [1] "steak") history = 0 ∧
        c.state.store.depositsOf [1] "steak" = 3 ∧
        overRun (removedFrom [1] "steak") history = 10 := by
  let events : List Event :=
    [submitWith 1 [⟨"steak", 10⟩], .endBlock 100 nothingStaked fun _ => ascending,
      submitWith 150 [⟨"steak", 3⟩], .endBlock 201 nothingStaked fun _ => ascending]
  obtain ⟨c, hrun, htest⟩ := Run.of_leadsTo step (newChain 0 1 proposerAccounts) events
    (fun c => decide (c.state.store.depositsOf [1] "steak" = 3)) (by decide +kernel)
  have hstored := of_decide_eq_true htest
  obtain ⟨-, -, hlaw⟩ := deposits_accounted hrun (by decide +kernel) (by decide +kernel)
  refine ⟨_, c, hrun, by decide +kernel, by decide +kernel, hstored, ?_⟩
  have hbooks := hlaw [1] "steak"
  rw [hstored, show overRun (takenFrom [1] "steak") _ = 13 by decide +kernel,
    show overRun (refundedTo [1] "steak") _ = 0 by decide +kernel] at hbooks
  omega

/-- A proposal with three coins on it is dropped: they stay where they are, and belong to nothing. -/
theorem deposits_stranded :
    ∃ history c, Run step (newChain 0 1 proposerAccounts) history c ∧
      Run.Meets (fun c event => event.Timely c) history ∧
      c.state.store.getDeposit 1 [1] = some ⟨[1], 1, [⟨"steak", 3⟩]⟩ ∧
      c.state.store.getProposal 1 = none := by
  let events : List Event :=
    [submitWith 1 [⟨"steak", 3⟩], .endBlock 201 nothingStaked fun _ => ascending]
  obtain ⟨c, hrun, htest⟩ := Run.of_leadsTo step (newChain 0 1 proposerAccounts) events
    (fun c => decide (c.state.store.getDeposit 1 [1] = some ⟨[1], 1, [⟨"steak", 3⟩]⟩ ∧
      c.state.store.getProposal 1 = none)) (by decide +kernel)
  exact ⟨_, c, hrun, by decide +kernel, of_decide_eq_true htest⟩

end Tepleton.Gov
