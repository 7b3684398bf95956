import Tepleton.Stake.Effects.Frame
import Tepleton.Stake.Steps

/-!
# No unbonding is lost

A delegator and a validator share one slot for an unbonding delegation, and `BeginUnbonding` writes
the slot without looking at it.  A ledger that follows the run counts, for every delegator and
validator, what `CompleteUnbonding` has credited and what the unbondings have returned.  The books
balance in all states exactly as long as no unbonding begins while the slot holds a balance.
-/

namespace Tepleton.Stake

open Lib

/-- What has been credited and what has been returned so far, by delegator and validator. -/
structure Ledger where
  credited : Address → Address → ℤ
  returned : Address → Address → ℤ

namespace Ledger

/-- The ledger before anything has happened. -/
def empty : Ledger := ⟨fun _ _ => 0, fun _ _ => 0⟩

/-- `amount` is added for one delegator and validator. -/
def addTo (book : Address → Address → ℤ) (delegatorAddr validatorAddr : Address) (amount : ℤ) :
    Address → Address → ℤ :=
  fun d v => book d v + if d = delegatorAddr ∧ v = validatorAddr then amount else 0

/-- What a completed unbonding has added to the account of the delegator, in the bond
denomination. -/
def credit (s s' : Store) (delegatorAddr : Address) : ℤ :=
  (Bank.getCoins s'.accounts delegatorAddr).denomTotal s.params.bondDenom -
    (Bank.getCoins s.accounts delegatorAddr).denomTotal s.params.bondDenom

/-- The amount returned by a call of `unbond`. -/
def returns (ctx : Ctx) (s : Store) (msg : MsgBeginUnbonding) : ℤ :=
  match s.unbond ctx msg.delegatorAddr msg.validatorAddr msg.sharesAmount with
  | .error _ => 0
  | .ok (_, amount) => amount

/-- The entry for a step from `st` to `st'`. -/
def record (l : Ledger) (st st' : State) : Op → Ledger
  | .beginUnbonding msg =>
    let amount := returns st.ctx st.store msg
    { l with returned := addTo l.returned msg.delegatorAddr msg.validatorAddr amount }
  | .completeUnbonding msg =>
    let amount := credit st.store st'.store msg.delegatorAddr
    { l with credited := addTo l.credited msg.delegatorAddr msg.validatorAddr amount }
  | _ => l

end Ledger

/-- A step of the chain, entered in the ledger. -/
def ledgerStep (x : State × Ledger) (op : Op) : Outcome (State × Ledger) := do
  let st ← step x.1 op
  return (st, x.2.record x.1 st op)

/-- The balance of the unbonding delegation stored for a delegator and a validator. -/
def pendingBalance (s : Store) (delegatorAddr validatorAddr : Address) : ℤ :=
  (s.getUnbondingDelegation delegatorAddr validatorAddr).elim 0 fun ubd => ubd.balance.amount

/-- The books balance: what has been returned has been credited or is pending. -/
def BooksBalance (x : State × Ledger) : Prop :=
  ∀ d v, x.2.credited d v + pendingBalance x.1.store d v = x.2.returned d v

/-- An unbonding begins only if nothing is pending for its delegator and validator. -/
def SlotFree (s : Store) : Op → Prop
  | .beginUnbonding msg => pendingBalance s msg.delegatorAddr msg.validatorAddr = 0
  | _ => True

instance (s : Store) (op : Op) : Decidable (SlotFree s op) :=
  match op with
  | .beginUnbonding _ => inferInstanceAs (Decidable (_ = _))
  | .createValidator _ | .editValidator _ | .delegate _ | .completeUnbonding _
  | .beginRedelegate _ | .completeRedelegate _ | .revoke _ | .unrevoke _ | .slash _ _ _ _
  | .endBlock _ => inferInstanceAs (Decidable True)

/-- Unbonding delegations are kept in the bond denomination. -/
def InBondDenom (s : Store) : Prop :=
  ∀ (key : Address ×ₗ Address) (ubd : UnbondingDelegation),
    s.unbondingDelegations[key]? = some ubd → ubd.balance.denom = s.params.bondDenom

/-! ## What the steps do to unbonding delegations -/

variable {st st' : State} {op : Op}

/-- Only beginning and completing an unbonding write unbonding delegations. -/
theorem step_unbondings (hwell : st.store.WellFormed) (hrecent : op.Recent st.ctx)
    (h : step st op = .ok st') (hbegin : ∀ msg, op ≠ .beginUnbonding msg)
    (hcomplete : ∀ msg, op ≠ .completeUnbonding msg) :
    st'.store.unbondingDelegations = st.store.unbondingDelegations ∧
      st'.store.params = st.store.params := by
  obtain ⟨ctx', s'⟩ := st'
  have heffect : Effect st.ctx st.store op s' := step_effect h
  refine ⟨?_, heffect.params⟩
  cases heffect with
  | inner _ hinner | pays _ _ hinner => exact hinner.records.1
  | slash hslash => exact (slash_sameRecords hwell.undated hrecent hslash).1
  | beginUnbonding _ _ => exact absurd rfl (hbegin _)
  | completeUnbonding _ _ _ => exact absurd rfl (hcomplete _)
  | beginRedelegate _ hinner _ _ _ => exact hinner.records.1
  | completeRedelegate _ _ => rfl

/-! ## One step in the books -/

theorem step_beginUnbonding {msg : MsgBeginUnbonding}
    (h : step st (.beginUnbonding msg) = .ok st') :
    ∃ s₁ amount, st.store.Inner s₁ ∧ amount = Ledger.returns st.ctx st.store msg ∧
      st'.store = s₁.setUnbondingDelegation
        { delegatorAddr := msg.delegatorAddr, validatorAddr := msg.validatorAddr
          creationHeight := 0
          minTime := int64 (st.ctx.blockTime + st.store.params.unbondingTime)
          initialBalance := ⟨st.store.params.bondDenom, amount⟩
          balance := ⟨st.store.params.bondDenom, amount⟩ } := by
  obtain ⟨ctx', s'⟩ := st'
  cases step_effect h with
  | inner hop _ | pays hop _ _ => exact absurd trivial hop
  | beginUnbonding hunbond hinner =>
    refine ⟨_, _, hinner, ?_, rfl⟩
    rw [Ledger.returns, hunbond]

theorem step_beginUnbonding_slot {msg : MsgBeginUnbonding}
    (h : step st (.beginUnbonding msg) = .ok st') :
    ∃ ubd, ubd.balance = ⟨st.store.params.bondDenom, Ledger.returns st.ctx st.store msg⟩ ∧
      st'.store.params = st.store.params ∧ st'.store.unbondingDelegations =
        st.store.unbondingDelegations.insert (getUBDKey msg.delegatorAddr msg.validatorAddr) ubd := by
  obtain ⟨s₁, amount, hinner, rfl, heq⟩ := step_beginUnbonding h
  rw [heq, ← hinner.records.1]
  exact ⟨_, rfl, hinner.params, rfl⟩

theorem step_completeUnbonding {msg : MsgCompleteUnbonding} (hwell : st.store.WellFormed)
    (hdenom : InBondDenom st.store) (h : step st (.completeUnbonding msg) = .ok st') :
    Ledger.credit st.store st'.store msg.delegatorAddr =
        pendingBalance st.store msg.delegatorAddr msg.validatorAddr ∧
      st'.store.params = st.store.params ∧ st'.store.unbondingDelegations =
        st.store.unbondingDelegations.erase (getUBDKey msg.delegatorAddr msg.validatorAddr) := by
  rcases step_cases h with ⟨blockTime, hop⟩ | ⟨-, hdeliver⟩
  · cases hop
  obtain ⟨ubd, accounts, hubd, -, hadd, hs'⟩ := completeUnbonding_eq_ok hdeliver
  have hkey := (hwell.unbondings _ ubd hubd).1
  have hd : ubd.delegatorAddr = msg.delegatorAddr := congrArg (fun key => (ofLex key).1) hkey
  refine ⟨?_, by rw [hs']; rfl, ?_⟩
  · have hcoins := Bank.denomTotal_addCoins hadd st.store.params.bondDenom
    rw [hd] at hcoins
    have haccounts : st'.store.accounts = accounts := by rw [hs']; rfl
    rw [Ledger.credit, haccounts, hcoins, pendingBalance, hubd]
    simp [hdenom _ ubd hubd]
  · rw [hs', ← hkey]
    rfl

theorem pendingBalance_insert {s s' : Store} {ubd : UnbondingDelegation}
    {delegatorAddr validatorAddr : Address}
    (h : s'.unbondingDelegations =
      s.unbondingDelegations.insert (getUBDKey delegatorAddr validatorAddr) ubd) (d v : Address) :
    pendingBalance s' d v =
      if d = delegatorAddr ∧ v = validatorAddr then ubd.balance.amount else pendingBalance s d v := by
  have hkey : getUBDKey delegatorAddr validatorAddr = getUBDKey d v ↔
      d = delegatorAddr ∧ v = validatorAddr := by
    simp [getUBDKey, eq_comm]
  rw [pendingBalance, Store.getUnbondingDelegation, h, KVStore.getElem?_insert]
  simp only [hkey]
  split_ifs <;> rfl

theorem pendingBalance_erase {s s' : Store} {delegatorAddr validatorAddr : Address}
    (h : s'.unbondingDelegations =
      s.unbondingDelegations.erase (getUBDKey delegatorAddr validatorAddr)) (d v : Address) :
    pendingBalance s' d v =
      if d = delegatorAddr ∧ v = validatorAddr then 0 else pendingBalance s d v := by
  have hkey : getUBDKey delegatorAddr validatorAddr = getUBDKey d v ↔
      d = delegatorAddr ∧ v = validatorAddr := by
    simp [getUBDKey, eq_comm]
  rw [pendingBalance, Store.getUnbondingDelegation, h, KVStore.getElem?_erase]
  simp only [hkey]
  split_ifs <;> rfl

/-- One step keeps the books balanced exactly if it does not overwrite a balance. -/
theorem booksBalance_step_iff {x x' : State × Ledger} (hwell : x.1.store.WellFormed)
    (hdenom : InBondDenom x.1.store) (hbooks : BooksBalance x) (hrecent : op.Recent x.1.ctx)
    (h : ledgerStep x op = .ok x') : BooksBalance x' ↔ SlotFree x.1.store op := by
  obtain ⟨st, l⟩ := x
  simp only [ledgerStep, bind_eq_ok, pure_eq_ok] at h
  obtain ⟨st', hstep, rfl⟩ := h
  by_cases hbegin : ∃ msg, op = .beginUnbonding msg
  · obtain ⟨msg, rfl⟩ := hbegin
    obtain ⟨ubd, hbalance, -, hinsert⟩ := step_beginUnbonding_slot hstep
    have hslot := hbooks msg.delegatorAddr msg.validatorAddr
    constructor
    · intro hbooks'
      have hslot' := hbooks' msg.delegatorAddr msg.validatorAddr
      simp only [Ledger.record, Ledger.addTo, pendingBalance_insert hinsert, and_self, if_true,
        hbalance] at hslot'
      simp only at hslot
      show pendingBalance st.store msg.delegatorAddr msg.validatorAddr = 0
      omega
    · intro hfree d v
      have hfree' : pendingBalance st.store msg.delegatorAddr msg.validatorAddr = 0 := hfree
      have hbefore := hbooks d v
      simp only [Ledger.record, Ledger.addTo, pendingBalance_insert hinsert, hbalance]
      split_ifs with hpair
      · obtain ⟨rfl, rfl⟩ := hpair
        simp only at hbefore hslot
        omega
      · simpa using hbefore
  by_cases hcomplete : ∃ msg, op = .completeUnbonding msg
  · obtain ⟨msg, rfl⟩ := hcomplete
    obtain ⟨hcredit, -, herase⟩ := step_completeUnbonding hwell hdenom hstep
    refine ⟨fun _ => trivial, fun _ d v => ?_⟩
    have hbefore := hbooks d v
    simp only [Ledger.record, Ledger.addTo, pendingBalance_erase herase, hcredit]
    split_ifs with hpair
    · obtain ⟨rfl, rfl⟩ := hpair
      simp only at hbefore
      omega
    · simpa using hbefore
  · push Not at hbegin hcomplete
    obtain ⟨hunbondings, -⟩ := step_unbondings hwell hrecent hstep hbegin hcomplete
    have hpending : ∀ d v, pendingBalance st'.store d v = pendingBalance st.store d v := by
      intro d v
      rw [pendingBalance, Store.getUnbondingDelegation, hunbondings]
      rfl
    have hsame : l.record st st' op = l ∧ SlotFree st.store op := by
      cases op with
      | beginUnbonding msg => exact absurd rfl (hbegin msg)
      | completeUnbonding msg => exact absurd rfl (hcomplete msg)
      | _ => exact ⟨rfl, trivial⟩
    refine ⟨fun _ => hsame.2, fun _ d v => ?_⟩
    simp only [hsame.1, hpending]
    exact hbooks d v

theorem inBondDenom_step (hwell : st.store.WellFormed) (hdenom : InBondDenom st.store)
    (hrecent : op.Recent st.ctx) (h : step st op = .ok st') : InBondDenom st'.store := by
  by_cases hbegin : ∃ msg, op = .beginUnbonding msg
  · obtain ⟨msg, rfl⟩ := hbegin
    obtain ⟨ubd, hbalance, hparams, hinsert⟩ := step_beginUnbonding_slot h
    rw [InBondDenom, hinsert, hparams]
    exact KVStore.forall_insert hdenom (by rw [hbalance])
  by_cases hcomplete : ∃ msg, op = .completeUnbonding msg
  · obtain ⟨msg, rfl⟩ := hcomplete
    obtain ⟨-, hparams, herase⟩ := step_completeUnbonding hwell hdenom h
    rw [InBondDenom, herase, hparams]
    exact KVStore.forall_erase hdenom
  · push Not at hbegin hcomplete
    obtain ⟨hunbondings, hparams⟩ := step_unbondings hwell hrecent h hbegin hcomplete
    rw [InBondDenom, hunbondings, hparams]
    exact hdenom

/-! ## Runs -/

/-- Along a run from an empty store, for every delegator and validator the amounts credited and the
balance pending add up to the amounts returned in all states exactly if no unbonding began while a
balance was pending in its slot. -/
theorem books_balance_iff {params : Params} {pool : Pool} {accounts : Auth.AccountStore} {ctx : Ctx}
    {history : List ((State × Ledger) × Op)} {x : State × Ledger}
    (hrun : Run ledgerStep (⟨ctx, emptyStore params pool accounts⟩, Ledger.empty) history x)
    (hrecent : Run.Meets (fun x op => op.Recent x.1.ctx) history) :
    Run.Always BooksBalance history x ↔ Run.Meets (fun x op => SlotFree x.1.store op) history := by
  refine Run.always_iff (fun x => x.1.store.WellFormed ∧ InBondDenom x.1.store) ?_ ?_ ?_ ?_
    hrun hrecent
  · refine ⟨emptyStore_wellFormed _ _ _, fun key ubd hubd => ?_⟩
    simp [emptyStore] at hubd
  · intro d v
    simp [Ledger.empty, pendingBalance, Store.getUnbondingDelegation, emptyStore]
  · rintro ⟨st, l⟩ op x' ⟨hwell, hdenom⟩ hallowed h
    simp only [ledgerStep, bind_eq_ok, pure_eq_ok] at h
    obtain ⟨st', hstep, rfl⟩ := h
    exact ⟨step_wellFormed hwell hallowed hstep, inBondDenom_step hwell hdenom hallowed hstep⟩
  · rintro x op x' ⟨hwell, hdenom⟩ hbooks hallowed h
    exact booksBalance_step_iff hwell hdenom hbooks hallowed h

theorem books_balance_iff_example :
    ∃ x, Run ledgerStep (Example.genesis 2, Ledger.empty)
        (Run.historyOf ledgerStep (Example.genesis 2, Ledger.empty)
          [Example.create 1 10, Example.unbond 1 1 3, .endBlock 259200,
            .completeUnbonding ⟨[1], [1]⟩, Example.unbond 1 1 2]) x ∧
      x.2.credited [1] [1] = 3 ∧ x.2.credited [1] [1] + pendingBalance x.1.store [1] [1] = 5 := by
  obtain ⟨x, hrun, htest⟩ := Run.of_leadsTo ledgerStep (Example.genesis 2, Ledger.empty)
    [Example.create 1 10, Example.unbond 1 1 3, .endBlock 259200,
      .completeUnbonding ⟨[1], [1]⟩, Example.unbond 1 1 2]
    (fun x => decide (x.2.credited [1] [1] = 3 ∧ x.2.returned [1] [1] = 5)) (by decide +kernel)
  obtain ⟨hcredited, hreturned⟩ := of_decide_eq_true htest
  have hbooks := (books_balance_iff hrun (by decide +kernel)).mpr (by decide +kernel)
  exact ⟨x, hrun, hcredited, (hbooks.2 [1] [1]).trans hreturned⟩

/-- Two unbondings from one validator with nothing completed between them. -/
def overlappingUnbondings : List Op :=
  [Example.create 1 10, Example.unbond 1 1 3, Example.unbond 1 1 2]

/-- The second unbonding overwrites the first: five tokens were returned and two are pending. -/
theorem books_balance_fails :
    ∃ x, Run ledgerStep (Example.genesis 2, Ledger.empty)
        (Run.historyOf ledgerStep (Example.genesis 2, Ledger.empty) overlappingUnbondings) x ∧
      ¬ BooksBalance x := by
  obtain ⟨x, hrun, htest⟩ := Run.of_leadsTo ledgerStep (Example.genesis 2, Ledger.empty)
    overlappingUnbondings
    (fun x => decide (x.2.credited [1] [1] + pendingBalance x.1.store [1] [1] ≠
      x.2.returned [1] [1])) (by decide +kernel)
  exact ⟨x, hrun, fun hbooks => of_decide_eq_true htest (hbooks [1] [1])⟩

end Tepleton.Stake
