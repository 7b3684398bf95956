import Tepleton.Stake.Effects.Records
import Tepleton.Stake.Effects.SlashUnbonding

/-!
# Slashing stake that has left

`BeginUnbonding` and `BeginRedelegation` store records whose creation height is zero, and `Slash`
passes over every record created before the infraction.  So a slash for an infraction at a positive
height takes nothing from any record of a chain, however late the stake has left.
-/

namespace Tepleton.Stake

open Lib

/-- On a chain that started with an empty store, stake has left the validator at `validatorAddr` by
`op`, in `st₀`; later, in `st₂`, the validator is slashed for an infraction no later than that. -/
structure SlashedAfter (op : Op) (validatorAddr : Address) (st₀ st₂ : State)
    (infractionHeight power : ℤ) (slashFactor : ℚ) (s' : Store) : Prop where
  start : ∃ ctx params pool accounts history,
    Run step ⟨ctx, emptyStore params pool accounts⟩ history st₀
  leaves : ∃ st₁ history, step st₀ op = .ok st₁ ∧ Run step st₁ history st₂
  slashes : ∃ pubkey v, st₂.store.getValidatorByPubKey pubkey = some v ∧ v.owner = validatorAddr ∧
    st₂.store.slash st₂.ctx pubkey infractionHeight power slashFactor = .ok s'
  positive : 0 < infractionHeight
  contributed : infractionHeight ≤ st₀.ctx.blockHeight
  past : infractionHeight < st₂.ctx.blockHeight

theorem SlashedAfter.sameRecords {op : Op} {validatorAddr : Address} {st₀ st₂ : State}
    {infractionHeight power : ℤ} {slashFactor : ℚ} {s' : Store}
    (h : SlashedAfter op validatorAddr st₀ st₂ infractionHeight power slashFactor s') :
    st₂.store.SameRecords s' := by
  obtain ⟨ctx, params, pool, accounts, history, hrun⟩ := h.start
  obtain ⟨st₁, history', hstep, hrun'⟩ := h.leaves
  have hempty : Tended params ⟨ctx, emptyStore params pool accounts⟩ :=
    .of_empty ⟨ctx, emptyStore params pool accounts⟩ rfl rfl
  have hst₂ : Tended params st₂ := (hempty.run (hrun.snoc hstep)).run hrun'
  obtain ⟨pubkey, v, -, -, hslash⟩ := h.slashes
  exact slash_sameRecords hst₂.filed.undated (.inr h.positive) hslash

/-- The balance of the redelegation stored for a delegator and two validators. -/
def pendingRedelegation (s : Store) (delegatorAddr src dst : Address) : ℤ :=
  (s.getRedelegation delegatorAddr src dst).elim 0 fun red => red.balance.amount

/-- What a slash should take from a record with this balance, of an amount that left. -/
def dueOf (balance returned : ℤ) (slashFactor : ℚ) : ℤ :=
  min balance (evaluateBig (returned * slashFactor))

/-- A later slash takes what is due from an unbonding delegation, and from a redelegation, exactly if
nothing is due. -/
theorem late_slash_takes_due_iff {st₀ st₂ : State} {infractionHeight power : ℤ} {slashFactor : ℚ}
    {s' : Store} :
    (∀ (msg : MsgBeginUnbonding) (ubd : UnbondingDelegation),
      SlashedAfter (.beginUnbonding msg) msg.validatorAddr st₀ st₂ infractionHeight power slashFactor
        s' →
      st₂.store.getUnbondingDelegation msg.delegatorAddr msg.validatorAddr = some ubd →
      st₂.ctx.blockTime ≤ ubd.minTime →
      (ubd.balance.amount - pendingBalance s' msg.delegatorAddr msg.validatorAddr =
          dueOf ubd.balance.amount (Ledger.returns st₀.ctx st₀.store msg) slashFactor ↔
        dueOf ubd.balance.amount (Ledger.returns st₀.ctx st₀.store msg) slashFactor = 0)) ∧
    ∀ (msg : MsgBeginRedelegate) (red : Redelegation),
      SlashedAfter (.beginRedelegate msg) msg.validatorSrcAddr st₀ st₂ infractionHeight power
        slashFactor s' →
      st₂.store.getRedelegation msg.delegatorAddr msg.validatorSrcAddr msg.validatorDstAddr =
        some red →
      st₂.ctx.blockTime ≤ red.minTime →
      (red.balance.amount - pendingRedelegation s' msg.delegatorAddr msg.validatorSrcAddr
            msg.validatorDstAddr =
          dueOf red.balance.amount (Ledger.returns st₀.ctx st₀.store
            ⟨msg.delegatorAddr, msg.validatorSrcAddr, msg.sharesAmount⟩) slashFactor ↔
        dueOf red.balance.amount (Ledger.returns st₀.ctx st₀.store
          ⟨msg.delegatorAddr, msg.validatorSrcAddr, msg.sharesAmount⟩) slashFactor = 0) := by
  constructor
  · intro msg ubd hafter hubd _
    have hkept : pendingBalance s' msg.delegatorAddr msg.validatorAddr = ubd.balance.amount := by
      rw [pendingBalance, Store.getUnbondingDelegation, hafter.sameRecords.1]
      exact congrArg (Option.elim · 0 _) hubd
    rw [hkept, sub_self, eq_comm]
  · intro msg red hafter hred _
    have hkept : pendingRedelegation s' msg.delegatorAddr msg.validatorSrcAddr msg.validatorDstAddr =
        red.balance.amount := by
      rw [pendingRedelegation, Store.getRedelegation, hafter.sameRecords.2]
      exact congrArg (Option.elim · 0 _) hred
    rw [hkept, sub_self, eq_comm]

namespace Example

theorem slashedAfter (slashFactor : ℚ) (test : State → State → Store → Bool)
    (h : Run.leadsTo step (genesis 2) [create 1 10] (fun st₀ =>
      passes (fun st₁ => Run.leadsTo step st₁ [.endBlock 5] fun st₂ =>
          decide (1 ≤ st₀.ctx.blockHeight ∧ 1 < st₂.ctx.blockHeight ∧
            ∃ v ∈ st₂.store.getValidatorByPubKey [101], v.owner = [1]) &&
          passes (test st₀ st₂) (st₂.store.slash st₂.ctx [101] 1 10 slashFactor))
        (step st₀ (unbond 1 1 4))) = true) :
    ∃ st₀ st₂ s', SlashedAfter (unbond 1 1 4) [1] st₀ st₂ 1 10 slashFactor s' ∧
      test st₀ st₂ s' = true := by
  obtain ⟨st₀, hrun, h⟩ := Run.of_leadsTo step _ _ _ h
  obtain ⟨st₁, hst₁, h⟩ := exists_of_passes h
  obtain ⟨st₂, hrun', h⟩ := Run.of_leadsTo step _ _ _ h
  rw [Bool.and_eq_true, decide_eq_true_iff] at h
  obtain ⟨⟨hcontributed, hpast, v, hv, howner⟩, h⟩ := h
  obtain ⟨s', hslash, htest⟩ := exists_of_passes h
  exact ⟨st₀, st₂, s', ⟨⟨_, _, _, _, _, hrun⟩, ⟨st₁, _, hst₁, hrun'⟩, ⟨[101], v, hv, howner, hslash⟩,
    by decide, hcontributed, hpast⟩, htest⟩

end Example

/-- At a hundredth, nothing is due of four tokens. -/
theorem late_slash_takes_due_iff_example :
    ∃ st₀ st₂ s' ubd, SlashedAfter (Example.unbond 1 1 4) [1] st₀ st₂ 1 10 (1 / 100) s' ∧
      st₂.store.getUnbondingDelegation [1] [1] = some ubd ∧
      ubd.balance.amount - pendingBalance s' [1] [1] =
        dueOf ubd.balance.amount (Ledger.returns st₀.ctx st₀.store ⟨[1], [1], 4⟩) (1 / 100) := by
  obtain ⟨st₀, st₂, s', hafter, htest⟩ := Example.slashedAfter (1 / 100)
    (fun st₀ st₂ _ => decide (∃ ubd ∈ st₂.store.getUnbondingDelegation [1] [1],
      st₂.ctx.blockTime ≤ ubd.minTime ∧
      dueOf ubd.balance.amount (Ledger.returns st₀.ctx st₀.store ⟨[1], [1], 4⟩) (1 / 100) = 0))
    (by decide +kernel)
  obtain ⟨ubd, hubd, htime, hdue⟩ := of_decide_eq_true htest
  exact ⟨st₀, st₂, s', ubd, hafter, hubd,
    (late_slash_takes_due_iff.1 ⟨[1], [1], 4⟩ ubd hafter hubd htime).mpr hdue⟩

/-- At a half, two of four tokens are due, and the record keeps all four. -/
theorem late_slash_takes_nothing :
    ∃ st₀ st₂ s' ubd, SlashedAfter (Example.unbond 1 1 4) [1] st₀ st₂ 1 10 (1 / 2) s' ∧
      st₂.store.getUnbondingDelegation [1] [1] = some ubd ∧ st₂.ctx.blockTime ≤ ubd.minTime ∧
      dueOf ubd.balance.amount (Ledger.returns st₀.ctx st₀.store ⟨[1], [1], 4⟩) (1 / 2) = 2 ∧
      ubd.balance.amount = 4 ∧ pendingBalance s' [1] [1] = 4 := by
  obtain ⟨st₀, st₂, s', hafter, htest⟩ := Example.slashedAfter (1 / 2)
    (fun st₀ st₂ s' => decide (∃ ubd ∈ st₂.store.getUnbondingDelegation [1] [1],
      st₂.ctx.blockTime ≤ ubd.minTime ∧
      dueOf ubd.balance.amount (Ledger.returns st₀.ctx st₀.store ⟨[1], [1], 4⟩) (1 / 2) = 2 ∧
      ubd.balance.amount = 4 ∧ pendingBalance s' [1] [1] = 4)) (by decide +kernel)
  obtain ⟨ubd, hubd, hresult⟩ := of_decide_eq_true htest
  exact ⟨st₀, st₂, s', ubd, hafter, hubd, hresult⟩

end Tepleton.Stake
