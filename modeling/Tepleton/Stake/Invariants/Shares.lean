import Tepleton.Stake.Settle
import Tepleton.Stake.Steps

/-!
# The pool and the validators agree on the shares

For each status the pool counts the shares that the validators of this status hold.  Every write of
the pool goes together with the write of a record: `MovesWith` says so for the functions on one
validator.  The exception is the validator that is updated and kicked in one call.  The kick takes
its shares out of the bonded pool, and the copy written afterwards still holds them.
-/

namespace Tepleton.Stake

open Lib

/-- The shares of each status in the pool are those of the stored validators. -/
def SharesAddUp (s : Store) : Prop :=
  ∀ status, s.pool.shares status = KVStore.sumBy (fun _ v => v.sharesIn status) s.validators

variable {s : Store} {v : Validator}

theorem sumBy_replace {v' : Validator} (hv : s.getValidator v.owner = some v)
    (howner : v'.owner = v.owner) (status : BondStatus) :
    KVStore.sumBy (fun _ u => u.sharesIn status) (s.validators.insert v'.owner v') =
      KVStore.sumBy (fun _ u => u.sharesIn status) s.validators - v.sharesIn status +
        v'.sharesIn status := by
  rw [KVStore.sumBy_insert, howner, KVStore.sumBy_eq_add_erase _ hv]
  ring

theorem SharesAddUp.moves {s' : Store} {v' : Validator} (hs : SharesAddUp s)
    (hv : s.getValidator v.owner = some v) (howner : v'.owner = v.owner)
    (hmoves : v.MovesWith s.pool v' s'.pool)
    (hvalidators : s'.validators = s.validators.insert v'.owner v') : SharesAddUp s' := by
  intro status
  rw [hvalidators, sumBy_replace hv howner, hmoves status, hs status]

theorem sharesAddUp_settling : Settling SharesAddUp where
  ranks _ _ _ _ hs := hs
  restamp {s v} height counter _ hv hs := by
    have hmoves : v.MovesWith s.pool (v.stamped height counter) s.pool := fun status => by
      rw [Validator.sharesIn_congr (v := v.stamped height counter) (w := v) rfl]
      ring
    have howner : (v.stamped height counter).owner = v.owner := rfl
    exact hs.moves hv howner hmoves rfl
  bond _ hv _ hbond hs := by
    obtain ⟨-, pool, hstatus, rfl⟩ := Store.bondValidator_eq_ok.mp hbond
    obtain ⟨hv', hmoves⟩ := Validator.updateStatus_eq_ok hstatus
    exact hs.moves hv (by rw [hv']) hmoves rfl
  unbond _ hv hunbond hs := by
    obtain ⟨-, pool, hstatus, rfl⟩ := Store.unbondValidator_eq_ok.mp hunbond
    obtain ⟨hv', hmoves⟩ := Validator.updateStatus_eq_ok hstatus
    exact hs.moves hv (by rw [hv']) hmoves rfl

theorem SharesAddUp.registered {s₀ : Store} {msg : MsgCreateValidator} {w : Validator}
    (hs : SharesAddUp s) (h : registerValidator s msg = .ok (s₀, w)) : SharesAddUp s₀ := by
  obtain ⟨hnone, -, hw, rfl⟩ := registerValidator_eq_ok h
  have hfree : s.validators[w.owner]? = none := by rw [hw]; exact hnone
  have hblank : ∀ status, w.sharesIn status = 0 := by
    intro status
    rw [hw, Validator.sharesIn]
    exact ite_self 0
  intro status
  show s.pool.shares status =
    KVStore.sumBy (fun _ v => v.sharesIn status) (s.validators.insert w.owner w)
  rw [KVStore.sumBy_insert_of_none _ _ hfree, hblank, zero_add, hs status]

theorem SharesAddUp.changed {s₁ : Store} {w : Validator} (hs : SharesAddUp s) (h : Changed s s₁ w v)
    : SharesAddUp (s₁.setValidator v) := by
  have hvalidators : s₁.validators = s.validators := by
    rw [h.frame]
  refine hs.moves h.stored h.owner h.moves ?_
  show s₁.validators.insert v.owner v = s.validators.insert v.owner v
  rw [hvalidators]

theorem SharesAddUp.removed {s' : Store} {a : Address} (hs : SharesAddUp s)
    (hv : s.getValidator a = some v) (hamount : v.poolShares.amount = 0)
    (h : s.removeValidator a = .ok s') : SharesAddUp s' := by
  obtain ⟨key, -, rfl⟩ := removeValidator_eq_ok hv h
  intro status
  have hnothing : v.sharesIn status = 0 := by
    rw [Validator.sharesIn, hamount]
    exact ite_self 0
  have hsum := KVStore.sumBy_eq_add_erase (fun (_ : Address) u => u.sharesIn status)
    (show s.validators[a]? = some v from hv)
  rw [hnothing, zero_add] at hsum
  exact (hs status).trans hsum

/-! ## Runs -/

theorem sharesAddUp_maintained :
    Maintains (fun _ s => SharesAddUp s ∧ 0 < s.params.maxValidators.val)
      (fun _ s v => SharesAddUp (s.setValidator v) ∧ 0 < s.params.maxValidators.val)
      (fun ctx s v => s.Settles ctx v) (fun _ _ => True) where
  register _ hs _ hregister hchanged := by
    refine ⟨(hs.1.registered hregister).changed hchanged, ?_⟩
    obtain ⟨-, -, -, rfl⟩ := registerValidator_eq_ok hregister
    rw [hchanged.params]
    exact hs.2
  change _ hs hchanged := ⟨hs.1.changed hchanged, by rw [hchanged.params]; exact hs.2⟩
  update hwell hJ hsettles hw hupdate := by
    refine ⟨sharesAddUp_settling.updateValidator (fun _ hs => hs) hJ.2 hwell.validators hw hsettles
      hJ.1 hupdate, ?_⟩
    rw [(Store.updateValidator_updated hwell.validators hw hupdate).touches.params]
    exact hJ.2
  remove hwell hJ hsettles hw hupdate _ hamount hremove := by
    have hupdated := Store.updateValidator_updated hwell.validators hw hupdate
    have hs' := sharesAddUp_settling.updateValidator (fun _ hs => hs) hJ.2 hwell.validators hw
      hsettles hJ.1 hupdate
    refine ⟨hs'.removed hupdated.self (Store.updateValidator_zero hw hamount hupdate) hremove, ?_⟩
    obtain ⟨key, -, rfl⟩ := removeValidator_eq_ok hupdated.self hremove
    rw [hupdated.touches.params]
    exact hJ.2
  records _ _ _ _ _ _ hs := hs

theorem sharesAddUp_endBlock :
    KeptByEndBlock fun _ s => SharesAddUp s ∧ 0 < s.params.maxValidators.val := by
  intro ctx s looseTokens inflation blockTime _ hs _
  refine ⟨fun status => ?_, hs.2⟩
  have hshares := hs.1 status
  cases status <;> exact hshares

/-- In a run from an empty store and a pool without shares in which every update settles, the pool
counts for each status the shares of the stored validators. -/
theorem pool_shares_add_up {params : Params} {pool : Pool} {accounts : Auth.AccountStore} {ctx : Ctx}
    {history : List (State × Op)} {st : State} (hplaces : 0 < params.maxValidators.val)
    (hpool : ∀ status, pool.shares status = 0)
    (hrun : Run step ⟨ctx, emptyStore params pool accounts⟩ history st)
    (hsettles : Run.Meets (Orderly (fun ctx s v => s.Settles ctx v) fun _ _ => True) history)
    (status : BondStatus) :
    st.store.pool.shares status =
      KVStore.sumBy (fun _ v => if v.status = status then v.poolShares.amount else 0)
        st.store.validators := by
  have hempty : SharesAddUp (emptyStore params pool accounts) := fun status => by
    simp [emptyStore, hpool]
  exact (sharesAddUp_maintained.run sharesAddUp_endBlock (emptyStore_wellFormed _ _ _)
    ⟨hempty, hplaces⟩ hrun hsettles).2.1 status

/-- Validators enter and leave the bonded set, by votes of delegators and by revocation. -/
def movingShares : List Op :=
  [Example.create 1 10, Example.create 2 5, Example.create 3 3, Example.delegate 4 3 4,
    Example.unbond 2 2 4, Example.revoke 1, .endBlock 10, Example.unbond 2 2 1, .unrevoke [101]]

theorem pool_shares_add_up_example :
    ∃ st, Run step (Example.genesis 2) (Run.historyOf step (Example.genesis 2) movingShares) st ∧
      ∀ status, st.store.pool.shares status =
        KVStore.sumBy (fun _ v => if v.status = status then v.poolShares.amount else 0)
          st.store.validators := by
  obtain ⟨st, hrun, -⟩ := Run.of_leadsTo step (Example.genesis 2) movingShares (fun _ => true)
    (by decide +kernel)
  exact ⟨st, hrun, pool_shares_add_up (by decide) (by rintro ⟨⟩ <;> rfl) hrun (by decide +kernel)⟩

/-- When the cliff falls behind, the pool counts nine bonded shares and the bonded validators hold fourteen. -/
theorem pool_shares_add_up_fails :
    ∃ st, Run step (Example.genesis 2)
        (Run.historyOf step (Example.genesis 2) Example.cliffFallsBehind) st ∧
      st.store.pool.shares .bonded ≠
        KVStore.sumBy (fun _ v => if v.status = .bonded then v.poolShares.amount else 0)
          st.store.validators := by
  obtain ⟨st, hrun, htest⟩ := Run.of_leadsTo step (Example.genesis 2) Example.cliffFallsBehind
    (fun st => decide (st.store.pool.shares .bonded ≠
      KVStore.sumBy (fun _ v => if v.status = .bonded then v.poolShares.amount else 0)
        st.store.validators)) (by decide +kernel)
  exact ⟨st, hrun, of_decide_eq_true htest⟩

end Tepleton.Stake
