import Tepleton.Stake.Steps

/-!
# Delegations add up

In every reachable state the delegations to a validator sum up to the delegator shares it has
issued.  Delegating and unbonding change a delegation and the copy of the validator by the same
number of shares; an update stores the copy with its delegator shares as they are, whatever it does
to the bonded set; and a validator is removed only when its delegator shares are zero.

The invariant is stated for all addresses: an address without a validator has no delegations in the
sum, which is what makes it possible for a removed validator to be created again.
-/

namespace Tepleton.Stake

open Lib

/-- The delegator shares of the validator stored under an address, zero if there is none. -/
def issuedShares (v : Option Validator) : ℚ := v.elim 0 Validator.delegatorShares

/-- The delegations to every address sum up to the delegator shares issued there. -/
def DelegationsAddUp (s : Store) : Prop := ∀ a, s.delegated a = issuedShares (s.getValidator a)

theorem issuedShares_eq_of_core {v w : Option Validator}
    (h : v.map Validator.core = w.map Validator.core) : issuedShares v = issuedShares w := by
  cases v with
  | none =>
    cases w with
    | none => rfl
    | some w => simp at h
  | some v =>
    cases w with
    | none => simp at h
    | some w =>
      have hcore : v.core = w.core := by simpa using h
      exact Validator.delegatorShares_eq_of_identity (Validator.identity_eq_of_core hcore)

variable {s s' : Store} {v : Validator}

theorem delegated_eq_of_frame (h : s'.updateFrame = s.updateFrame) (a : Address) :
    s'.delegated a = s.delegated a := by
  have hdelegations := congrArg Store.delegations h
  exact congrArg (sharesTo a) hdelegations

theorem DelegationsAddUp.changed {s₁ : Store} {w : Validator} (hs : DelegationsAddUp s)
    (h : Changed s s₁ w v) : DelegationsAddUp (s₁.setValidator v) := by
  intro a
  have hbefore := hs a
  rw [Store.getValidator_setValidator, h.owner, h.getValidator]
  show s₁.delegated a = _
  rw [h.delegated, hbefore]
  by_cases ha : w.owner = a
  · subst ha
    simp [h.stored, issuedShares]
  · simp [ha, Ne.symm ha]

theorem DelegationsAddUp.updated {v' : Validator} (hs : DelegationsAddUp (s.setValidator v))
    (h : Store.Updated v s s' v') : DelegationsAddUp s' := by
  intro a
  have hbefore : s.delegated a = _ := hs a
  rw [delegated_eq_of_frame h.touches.frame, hbefore, Store.getValidator_setValidator]
  by_cases ha : v.owner = a
  · subst ha
    rw [if_pos rfl, h.stored]
    exact (Validator.delegatorShares_eq_of_identity h.identity).symm
  · rw [if_neg ha]
    exact (issuedShares_eq_of_core (h.touches.others a (Ne.symm ha))).symm

theorem DelegationsAddUp.removed {a : Address} (hs : DelegationsAddUp s)
    (hv : s.getValidator a = some v) (hempty : v.delegatorShares = 0)
    (h : s.removeValidator a = .ok s') : DelegationsAddUp s' := by
  obtain ⟨key, -, rfl⟩ := removeValidator_eq_ok hv h
  intro b
  have hbefore : s.delegated b = _ := hs b
  show s.delegated b = issuedShares (s.validators.erase a)[b]?
  rw [hbefore, KVStore.getElem?_erase]
  by_cases hb : a = b
  · subst hb
    simp [hv, hempty, issuedShares]
  · rw [if_neg hb]
    rfl

theorem DelegationsAddUp.registered {s₀ : Store} {msg : MsgCreateValidator} {w : Validator}
    (hs : DelegationsAddUp s) (h : registerValidator s msg = .ok (s₀, w)) : DelegationsAddUp s₀ :=
    by
  obtain ⟨hnone, -, hw, rfl⟩ := registerValidator_eq_ok h
  intro a
  have hbefore : s.delegated a = _ := hs a
  show s.delegated a = issuedShares ((s.setValidator w).getValidator a)
  rw [hbefore, Store.getValidator_setValidator]
  by_cases ha : w.owner = a
  · rw [if_pos ha, ← ha, hw]
    simp only [newValidator]
    rw [hnone]
    rfl
  · rw [if_neg ha]

theorem delegationsAddUp_maintained :
    Maintains (fun _ => DelegationsAddUp) (fun _ s v => DelegationsAddUp (s.setValidator v))
      (fun _ _ _ => True) (fun _ _ => True) where
  register _ hs _ hregister hchanged := (hs.registered hregister).changed hchanged
  change _ hs hchanged := hs.changed hchanged
  update hwell hJ _ hw hupdate :=
    hJ.updated (Store.updateValidator_updated hwell.validators hw hupdate)
  remove hwell hJ _ hw hupdate hempty _ hremove := by
    have hupdated := Store.updateValidator_updated hwell.validators hw hupdate
    rw [← Validator.delegatorShares_eq_of_identity hupdated.identity] at hempty
    exact (hJ.updated hupdated).removed hupdated.self hempty hremove
  records _ _ _ _ _ _ hs := hs

/-- In every state reached from an empty store by messages, ends of blocks, calls of `Revoke` and
`Unrevoke`, and slashes for an infraction at the current or a positive height, the delegations to
a stored validator sum up to its delegator shares. -/
theorem delegations_add_up {params : Params} {pool : Pool} {accounts : Auth.AccountStore} {ctx : Ctx}
    {history : List (State × Op)} {st : State}
    (hrun : Run step ⟨ctx, emptyStore params pool accounts⟩ history st)
    (hrecent : Run.Meets (fun st op => op.Recent st.ctx) history) {a : Address} {v : Validator}
    (hv : st.store.getValidator a = some v) :
    KVStore.sumBy (fun _ d => if d.validatorAddr = v.owner then d.shares else 0)
      st.store.delegations = v.delegatorShares := by
  have hempty : DelegationsAddUp (emptyStore params pool accounts) := by
    intro a
    simp [Store.delegated, sharesTo, emptyStore, Store.getValidator, issuedShares]
  obtain ⟨hwell, hinv⟩ := delegationsAddUp_maintained.run (fun _ _ _ _ hs _ => hs)
    (emptyStore_wellFormed params pool accounts) hempty hrun
    fun entry hentry => orderly_true (hrecent entry hentry)
  have hsum := hinv v.owner
  rw [hwell.validators.stored hv] at hsum
  exact hsum

/-- Two validators, a delegation, a slash and two unbondings, the second of which removes its
validator. -/
def delegationSteps : List Op :=
  [Example.create 1 10, Example.create 2 5, Example.delegate 3 1 7, .slash [101] 1 3 (1 / 2),
    Example.unbond 3 1 2, .endBlock 10, Example.revoke 1, Example.unbond 2 2 5]

theorem delegations_add_up_example :
    ∃ st v, Run step (Example.genesis 2)
        (Run.historyOf step (Example.genesis 2) delegationSteps) st ∧
      st.store.getValidator [1] = some v ∧ v.delegatorShares = 15 ∧
      KVStore.sumBy (fun _ d => if d.validatorAddr = v.owner then d.shares else 0)
        st.store.delegations = v.delegatorShares := by
  obtain ⟨st, hrun, htest⟩ := Run.of_leadsTo step (Example.genesis 2) delegationSteps
    (fun st => decide ((st.store.getValidator [1]).map Validator.delegatorShares = some 15))
    (by decide +kernel)
  obtain ⟨v, hv, hshares⟩ := Option.map_eq_some_iff.mp (of_decide_eq_true htest)
  exact ⟨st, v, hrun, hv, hshares, delegations_add_up hrun (by decide +kernel) hv⟩

end Tepleton.Stake
