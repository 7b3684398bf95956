import Tepleton.Stake.Effects.LateSlash

/-!
# The unbonding period

`BeginUnbonding` and `BeginRedelegation` store a record with the time from which it can be
completed, and overwrite an older record for the same addresses.  Slashes may lower the balance of a
record and leave its time alone.  So a record that is completed was stored by the latest unbonding
or redelegation for its addresses, no other completion lies between the two, and at least the
unbonding time has passed.
-/

namespace Tepleton.Stake

open Lib

/-! ## Unbonding delegations -/

/-- The step begins an unbonding of `d` from `v`. -/
def Op.BeginsUnbonding (d v : Address) : Op → Prop
  | .beginUnbonding msg => msg.delegatorAddr = d ∧ msg.validatorAddr = v
  | _ => False

/-- The step completes the unbonding of `d` from `v`. -/
def Op.CompletesUnbonding (d v : Address) : Op → Prop
  | .completeUnbonding msg => msg.delegatorAddr = d ∧ msg.validatorAddr = v
  | _ => False

/-- The record was stored by `op` in `st₀`, and only slashed in the steps after it. -/
structure UnbondingOrigin (params : Params) (st₀ : State) (op : Op) (between : List (State × Op))
    (ubd : UnbondingDelegation) : Prop where
  minTime : ubd.minTime = int64 (st₀.ctx.blockTime + params.unbondingTime)
  denom : ubd.balance.denom = params.bondDenom
  returned : ∃ msg, op = .beginUnbonding msg ∧
    ubd.initialBalance.amount = Ledger.returns st₀.ctx st₀.store msg
  amount : 0 ≤ ubd.initialBalance.amount →
    0 ≤ ubd.balance.amount ∧ ubd.balance.amount ≤ ubd.initialBalance.amount
  unslashed : Run.Meets (fun st op => op.Recent st.ctx) between →
    ubd.balance.amount = ubd.initialBalance.amount

section Unbondings

variable {params : Params} {st st' : State} {op : Op} {d v : Address}

theorem beginsUnbonding_stores {ubd : UnbondingDelegation} (hst : Tended params st)
    (hop : op.BeginsUnbonding d v) (h : step st op = .ok st')
    (hubd : st'.store.getUnbondingDelegation d v = some ubd) :
    UnbondingOrigin params st op [] ubd := by
  cases op with
  | beginUnbonding msg =>
    obtain ⟨s₁, amount, -, rfl, heq⟩ := step_beginUnbonding h
    rw [heq, Store.getUnbondingDelegation_set, hst.params] at hubd
    simp only [Op.BeginsUnbonding] at hop hubd
    rw [if_pos hop, Option.some.injEq] at hubd
    subst hubd
    exact ⟨rfl, rfl, ⟨msg, rfl, rfl⟩, fun hnonneg => ⟨hnonneg, le_refl _⟩, fun _ => rfl⟩
  | _ => exact hop.elim

theorem completesUnbonding_empties (hst : Tended params st) (hop : op.CompletesUnbonding d v)
    (h : step st op = .ok st') : st'.store.getUnbondingDelegation d v = none := by
  obtain ⟨ctx', s'⟩ := st'
  cases op with
  | completeUnbonding msg =>
    obtain ⟨rfl, rfl⟩ := hop
    cases step_effect h with
    | inner hother _ | pays hother _ _ => exact absurd trivial hother
    | completeUnbonding hubd _ _ =>
      obtain ⟨hkey, -⟩ := hst.filed.ubds _ _ hubd
      rw [getUBDKey, getUBDKey, toLex_inj, Prod.mk.injEq] at hkey
      rw [Store.getUnbondingDelegation_remove, if_pos hkey]
  | _ => exact hop.elim

/-- Other steps can at most slash the record. -/
theorem unbonding_weathers (hst : Tended params st) (hbegins : ¬ op.BeginsUnbonding d v)
    (h : step st op = .ok st') {ubd' : UnbondingDelegation}
    (hubd' : st'.store.getUnbondingDelegation d v = some ubd') :
    ∃ ubd, st.store.getUnbondingDelegation d v = some ubd ∧ ubd.Wears ubd' ∧
      (op.Recent st.ctx → ubd' = ubd) := by
  obtain ⟨ctx', s'⟩ := st'
  have heffect : Effect st.ctx st.store op s' := step_effect h
  have hkept : st.store.getUnbondingDelegation d v = some ubd' →
      ∃ ubd, st.store.getUnbondingDelegation d v = some ubd ∧ ubd.Wears ubd' ∧
        (op.Recent st.ctx → ubd' = ubd) :=
    fun hubd => ⟨ubd', hubd, .refl ubd', fun _ => rfl⟩
  -- a store with the same records has the same record in the slot
  have hsame : ∀ {s₁ : Store}, s₁.unbondingDelegations = st.store.unbondingDelegations →
      s₁.getUnbondingDelegation d v = some ubd' →
      st.store.getUnbondingDelegation d v = some ubd' := by
    intro s₁ hunbondings hget
    rwa [Store.getUnbondingDelegation, hunbondings] at hget
  cases heffect with
  | inner _ hinner | pays _ _ hinner => exact hkept (hsame hinner.records.1 hubd')
  | slash hslash =>
    obtain ⟨ubd, hubd, hwears⟩ := (slash_weathers hst.filed hslash).ubds _ _ hubd'
    refine ⟨ubd, hubd, hwears, fun hrecent => ?_⟩
    have hrecords := slash_sameRecords hst.filed.undated hrecent hslash
    exact Option.some.inj ((hsame hrecords.1 hubd').symm.trans hubd)
  | beginUnbonding _ hinner =>
    rw [Store.getUnbondingDelegation_set] at hubd'
    simp only [Op.BeginsUnbonding] at hbegins hubd'
    rw [if_neg hbegins] at hubd'
    exact hkept (hsame hinner.records.1 hubd')
  | completeUnbonding _ _ _ =>
    rw [Store.getUnbondingDelegation_remove] at hubd'
    split_ifs at hubd'
    exact hkept hubd'
  | beginRedelegate _ hinner _ _ _ => exact hkept (hsame hinner.records.1 hubd')
  | completeRedelegate _ _ => exact hkept hubd'

/-- A stored unbonding delegation was stored by the latest unbonding for its addresses, and has not
been completed since. -/
theorem unbonding_origin {start : State} {history : List (State × Op)}
    (hstart : Tended params start) (hempty : start.store.getUnbondingDelegation d v = none)
    (hrun : Run step start history st)
    {ubd : UnbondingDelegation} (hubd : st.store.getUnbondingDelegation d v = some ubd) :
    ∃ before st₀ op between, history = before ++ (st₀, op) :: between ∧ op.BeginsUnbonding d v ∧
      UnbondingOrigin params st₀ op between ubd ∧ ∀ entry ∈ between,
        ¬ entry.2.BeginsUnbonding d v ∧ ¬ entry.2.CompletesUnbonding d v := by
  refine Run.origin (Tended params) (fun st => st.store.getUnbondingDelegation d v)
    (UnbondingOrigin params) hstart hempty Tended.step beginsUnbonding_stores
    completesUnbonding_empties ?_ hrun hubd
  intro st op st' ubd' hst hbegins _ h hubd'
  obtain ⟨ubd, hubd, hwears, hrecent⟩ := unbonding_weathers hst hbegins h hubd'
  refine ⟨ubd, hubd, fun {st₀ op₀ between} horigin => ?_⟩
  refine ⟨hwears.minTime.trans horigin.minTime, hwears.denom.trans horigin.denom, ?_, ?_, ?_⟩
  · rw [hwears.initialBalance]
    exact horigin.returned
  · rw [hwears.initialBalance]
    intro hinitial
    obtain ⟨hnonneg, hle⟩ := horigin.amount hinitial
    obtain ⟨hnonneg', hle'⟩ := hwears.amount hinitial hnonneg
    exact ⟨hnonneg', hle'.trans hle⟩
  · intro hmeets
    obtain ⟨hbetween, hlast⟩ := Run.meets_append.mp hmeets
    rw [hwears.initialBalance, hrecent hlast]
    exact horigin.unslashed hbetween

end Unbondings

/-! ## Redelegations -/

/-- The step begins a redelegation of `d` from `v` to `w`. -/
def Op.BeginsRedelegation (d v w : Address) : Op → Prop
  | .beginRedelegate msg =>
    msg.delegatorAddr = d ∧ msg.validatorSrcAddr = v ∧ msg.validatorDstAddr = w
  | _ => False

/-- The step completes the redelegation of `d` from `v` to `w`. -/
def Op.CompletesRedelegation (d v w : Address) : Op → Prop
  | .completeRedelegate msg =>
    msg.delegatorAddr = d ∧ msg.validatorSrcAddr = v ∧ msg.validatorDstAddr = w
  | _ => False

section Redelegations

variable {params : Params} {st st' : State} {op : Op} {d v w : Address}

theorem beginsRedelegation_stores {red : Redelegation} (hst : Tended params st)
    (hop : op.BeginsRedelegation d v w) (h : step st op = .ok st')
    (hred : st'.store.getRedelegation d v w = some red) :
    red.minTime = int64 (st.ctx.blockTime + params.unbondingTime) := by
  obtain ⟨ctx', s'⟩ := st'
  cases op with
  | beginRedelegate msg =>
    cases step_effect h with
    | inner hother _ | pays hother _ _ => exact absurd trivial hother
    | beginRedelegate _ _ haddrs _ htime =>
      simp only [Op.BeginsRedelegation] at hop
      rw [Store.getRedelegation_set, haddrs.1, haddrs.2.1, haddrs.2.2, if_pos hop,
        Option.some.injEq] at hred
      rw [← hred, htime, hst.params]
  | _ => exact hop.elim

theorem completesRedelegation_empties (hst : Tended params st)
    (hop : op.CompletesRedelegation d v w) (h : step st op = .ok st') :
    st'.store.getRedelegation d v w = none := by
  obtain ⟨ctx', s'⟩ := st'
  cases op with
  | completeRedelegate msg =>
    obtain ⟨rfl, rfl, rfl⟩ := hop
    cases step_effect h with
    | inner hother _ | pays hother _ _ => exact absurd trivial hother
    | completeRedelegate hred _ =>
      obtain ⟨hkey, -⟩ := hst.filed.reds _ _ hred
      rw [getREDKey, getREDKey, toLex_inj, Prod.mk.injEq, toLex_inj, Prod.mk.injEq] at hkey
      rw [Store.getRedelegation_remove, if_pos hkey]
  | _ => exact hop.elim

/-- Other steps leave the time of the record alone. -/
theorem redelegation_weathers (hst : Tended params st) (hbegins : ¬ op.BeginsRedelegation d v w)
    (h : step st op = .ok st') {red' : Redelegation}
    (hred' : st'.store.getRedelegation d v w = some red') :
    ∃ red, st.store.getRedelegation d v w = some red ∧ red'.minTime = red.minTime := by
  obtain ⟨ctx', s'⟩ := st'
  have heffect : Effect st.ctx st.store op s' := step_effect h
  have hsame : ∀ {s₁ : Store}, s₁.redelegations = st.store.redelegations →
      s₁.getRedelegation d v w = some red' →
      ∃ red, st.store.getRedelegation d v w = some red ∧ red'.minTime = red.minTime := by
    intro s₁ hredelegations hget
    rw [Store.getRedelegation, hredelegations] at hget
    exact ⟨red', hget, rfl⟩
  cases heffect with
  | inner _ hinner | pays _ _ hinner => exact hsame hinner.records.2 hred'
  | slash hslash =>
    obtain ⟨red, hred, hwears⟩ := (slash_weathers hst.filed hslash).reds _ _ hred'
    exact ⟨red, hred, by rw [← hwears]⟩
  | beginUnbonding _ hinner => exact hsame hinner.records.2 hred'
  | completeUnbonding _ _ _ => exact hsame rfl hred'
  | beginRedelegate _ hinner haddrs _ _ =>
    simp only [Op.BeginsRedelegation] at hbegins
    rw [Store.getRedelegation_set, haddrs.1, haddrs.2.1, haddrs.2.2, if_neg hbegins] at hred'
    exact hsame hinner.records.2 hred'
  | completeRedelegate _ _ =>
    rw [Store.getRedelegation_remove] at hred'
    split_ifs at hred'
    exact hsame rfl hred'

theorem redelegation_origin {start : State} {history : List (State × Op)}
    (hstart : Tended params start) (hempty : start.store.getRedelegation d v w = none)
    (hrun : Run step start history st) {red : Redelegation}
    (hred : st.store.getRedelegation d v w = some red) :
    ∃ before st₀ op between, history = before ++ (st₀, op) :: between ∧
      op.BeginsRedelegation d v w ∧
      red.minTime = int64 (st₀.ctx.blockTime + params.unbondingTime) ∧ ∀ entry ∈ between,
        ¬ entry.2.BeginsRedelegation d v w ∧ ¬ entry.2.CompletesRedelegation d v w := by
  refine Run.origin (Tended params) (fun st => st.store.getRedelegation d v w)
    (fun st₀ _ _ red => red.minTime = int64 (st₀.ctx.blockTime + params.unbondingTime)) hstart
    hempty Tended.step beginsRedelegation_stores completesRedelegation_empties ?_ hrun hred
  intro st op st' red' hst hbegins _ h hred'
  obtain ⟨red, hred, hminTime⟩ := redelegation_weathers hst hbegins h hred'
  exact ⟨red, hred, fun horigin => hminTime.trans horigin⟩

end Redelegations

/-! ## Completions -/

/-- The unbonding completed by `msg` in `st` after `before` began in one of these steps, at least
the unbonding time ago, and no other unbonding for the addresses began or was completed since.  The
delegator gets at most what that unbonding returned; where an amount could be negative, only if no
slash since then was for an infraction below height one. -/
def CompletesUnbondingInTime (unbondingTime : ℤ) (before : List (State × Op)) (st : State)
    (msg : MsgCompleteUnbonding) : Prop :=
  ∃ earlier st₀ begun between st', before = earlier ++ (st₀, .beginUnbonding begun) :: between ∧
    begun.delegatorAddr = msg.delegatorAddr ∧ begun.validatorAddr = msg.validatorAddr ∧
    (∀ entry ∈ between, ¬ entry.2.BeginsUnbonding msg.delegatorAddr msg.validatorAddr ∧
      ¬ entry.2.CompletesUnbonding msg.delegatorAddr msg.validatorAddr) ∧
    st₀.ctx.blockTime + unbondingTime ≤ st.ctx.blockTime ∧
    step st (.completeUnbonding msg) = .ok st' ∧
    (0 ≤ Ledger.returns st₀.ctx st₀.store begun ∨
        Run.Meets (fun st op => op.Recent st.ctx) between →
      Ledger.credit st.store st'.store msg.delegatorAddr ≤
        Ledger.returns st₀.ctx st₀.store begun)

/-- The redelegation completed by `msg` in `st` after `before` began in one of these steps, at least
the unbonding time ago, and no other redelegation for the addresses began or was completed since. -/
def CompletesRedelegationInTime (unbondingTime : ℤ) (before : List (State × Op)) (st : State)
    (msg : MsgCompleteRedelegate) : Prop :=
  ∃ earlier st₀ begun between, before = earlier ++ (st₀, .beginRedelegate begun) :: between ∧
    begun.delegatorAddr = msg.delegatorAddr ∧ begun.validatorSrcAddr = msg.validatorSrcAddr ∧
    begun.validatorDstAddr = msg.validatorDstAddr ∧
    (∀ entry ∈ between,
      ¬ entry.2.BeginsRedelegation msg.delegatorAddr msg.validatorSrcAddr msg.validatorDstAddr ∧
      ¬ entry.2.CompletesRedelegation msg.delegatorAddr msg.validatorSrcAddr
        msg.validatorDstAddr) ∧
    st₀.ctx.blockTime + unbondingTime ≤ st.ctx.blockTime

section Completions

variable {start st : State} {before after : List (State × Op)}

theorem completesUnbondingInTime {params : Params} (hstart : Tended params start)
    (hempty : start.store.unbondingDelegations = ∅) (hbefore : Run step start before st)
    (htimes : ∀ entry ∈ before, -2 ^ 63 ≤ entry.1.ctx.blockTime + params.unbondingTime ∧
      entry.1.ctx.blockTime + params.unbondingTime < 2 ^ 63)
    {msg : MsgCompleteUnbonding} {st' : State} (h : step st (.completeUnbonding msg) = .ok st') :
    CompletesUnbondingInTime params.unbondingTime before st msg := by
  have hst : Tended params st := hstart.run hbefore
  rcases step_cases h with ⟨blockTime, hop⟩ | ⟨-, hdeliver⟩
  · cases hop
  obtain ⟨ubd, accounts, hubd, hmature, hadd, hs'⟩ := completeUnbonding_eq_ok hdeliver
  have hnone : start.store.getUnbondingDelegation msg.delegatorAddr msg.validatorAddr = none := by
    rw [Store.getUnbondingDelegation, hempty]
    rfl
  obtain ⟨earlier, st₀, op, between, rfl, hop, horigin, hbetween⟩ :=
    unbonding_origin hstart hnone hbefore hubd
  obtain ⟨begun, rfl, hreturned⟩ := horigin.returned
  obtain ⟨hd, hv⟩ := hop
  refine ⟨earlier, st₀, begun, between, st', rfl, hd, hv, hbetween, ?_, h, ?_⟩
  · obtain ⟨hlow, hhigh⟩ := htimes (st₀, .beginUnbonding begun) (by simp)
    rw [horigin.minTime, int64_eq_self hlow hhigh] at hmature
    exact hmature
  · obtain ⟨hkey, -⟩ := hst.filed.ubds _ _ hubd
    rw [getUBDKey, getUBDKey, toLex_inj, Prod.mk.injEq] at hkey
    have hcredit : Ledger.credit st.store st'.store msg.delegatorAddr = ubd.balance.amount := by
      have hcoins := Bank.denomTotal_addCoins hadd st.store.params.bondDenom
      rw [hkey.1] at hcoins
      have haccounts : st'.store.accounts = accounts := by
        rw [hs']
        rfl
      rw [Ledger.credit, haccounts, hcoins]
      simp [horigin.denom, hst.params]
    rw [hcredit, ← hreturned]
    rintro (hnonneg | hrecent)
    · exact (horigin.amount hnonneg).2
    · exact (horigin.unslashed hrecent).le

theorem completesRedelegationInTime {params : Params} (hstart : Tended params start)
    (hempty : start.store.redelegations = ∅) (hbefore : Run step start before st)
    (htimes : ∀ entry ∈ before, -2 ^ 63 ≤ entry.1.ctx.blockTime + params.unbondingTime ∧
      entry.1.ctx.blockTime + params.unbondingTime < 2 ^ 63)
    {msg : MsgCompleteRedelegate} {st' : State} (h : step st (.completeRedelegate msg) = .ok st') :
    CompletesRedelegationInTime params.unbondingTime before st msg := by
  rcases step_cases h with ⟨blockTime, hop⟩ | ⟨-, hdeliver⟩
  · cases hop
  obtain ⟨red, hred, hmature, -⟩ := completeRedelegation_eq_ok hdeliver
  have hnone : start.store.getRedelegation msg.delegatorAddr msg.validatorSrcAddr
      msg.validatorDstAddr = none := by
    rw [Store.getRedelegation, hempty]
    rfl
  obtain ⟨earlier, st₀, op, between, rfl, hop, hminTime, hbetween⟩ :=
    redelegation_origin hstart hnone hbefore hred
  cases op with
  | beginRedelegate begun =>
    obtain ⟨hd, hv, hw⟩ := hop
    refine ⟨earlier, st₀, begun, between, rfl, hd, hv, hw, hbetween, ?_⟩
    obtain ⟨hlow, hhigh⟩ := htimes (st₀, .beginRedelegate begun) (by simp)
    rw [hminTime, int64_eq_self hlow hhigh] at hmature
    exact hmature
  | _ => exact hop.elim

end Completions

/-- In every run from a store without records, whatever the block times are as long as no completion
time overflows, every completed unbonding and every completed redelegation waited for the unbonding
time. -/
theorem unbonding_period_kept {start st : State} {history : List (State × Op)}
    (hubds : start.store.unbondingDelegations = ∅) (hreds : start.store.redelegations = ∅)
    (hrun : Run step start history st)
    (htimes : ∀ entry ∈ history,
      -2 ^ 63 ≤ entry.1.ctx.blockTime + start.store.params.unbondingTime ∧
        entry.1.ctx.blockTime + start.store.params.unbondingTime < 2 ^ 63) :
    (∀ before after st₁ msg, history = before ++ (st₁, .completeUnbonding msg) :: after →
      CompletesUnbondingInTime start.store.params.unbondingTime before st₁ msg) ∧
    ∀ before after st₁ msg, history = before ++ (st₁, .completeRedelegate msg) :: after →
      CompletesRedelegationInTime start.store.params.unbondingTime before st₁ msg := by
  have hstart : Tended start.store.params start := .of_empty start hubds hreds
  constructor
  · rintro before after st₁ msg rfl
    obtain ⟨middle, hbefore, hrest⟩ := Run.append_iff.mp hrun
    obtain ⟨rfl, st', htaken, -⟩ := Run.cons_iff.mp hrest
    exact completesUnbondingInTime hstart hubds hbefore
      (fun entry hentry => htimes entry (by simp [hentry])) htaken
  · rintro before after st₁ msg rfl
    obtain ⟨middle, hbefore, hrest⟩ := Run.append_iff.mp hrun
    obtain ⟨rfl, st', htaken, -⟩ := Run.cons_iff.mp hrest
    exact completesRedelegationInTime hstart hreds hbefore
      (fun entry hentry => htimes entry (by simp [hentry])) htaken

/-- Account `[1]` unbonds three tokens and redelegates two, and three days pass. -/
def threeDays : List Op :=
  [Example.create 1 10, Example.create 2 5, Example.unbond 1 1 3,
    .beginRedelegate ⟨[1], [1], [2], 2⟩, .endBlock 259200]

theorem unbonding_period_kept_example :
    ∃ st, Run step (Example.genesis 2) (Run.historyOf step (Example.genesis 2) threeDays) st ∧
      CompletesUnbondingInTime 259200 (Run.historyOf step (Example.genesis 2) threeDays) st
        ⟨[1], [1]⟩ := by
  obtain ⟨st, hrun, htest⟩ := Run.of_leadsTo step (Example.genesis 2) threeDays
    (fun st => decide (st.ctx.blockTime = 259200) &&
      passes (fun _ => true) (step st (.completeUnbonding ⟨[1], [1]⟩))) (by decide +kernel)
  rw [Bool.and_eq_true, decide_eq_true_iff] at htest
  obtain ⟨htime, hpasses⟩ := htest
  obtain ⟨st', hstep, -⟩ := exists_of_passes hpasses
  refine ⟨st, hrun, (unbonding_period_kept rfl rfl (hrun.snoc hstep) ?_).1 _ [] st _ rfl⟩
  rw [List.forall_mem_append]
  refine ⟨by decide +kernel, ?_⟩
  rintro entry hentry
  rw [List.mem_singleton.mp hentry, htime]
  decide +kernel

end Tepleton.Stake
