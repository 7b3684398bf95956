import Tepleton.Stake.Keeper.Validator

/-!
# What `updateValidator` does

The inversion lemmas for the functions of the validator keeper, on which every invariant rests.

* `rerank_cases` says what can have happened when the by-power index has been brought up to date.
* `updateBondedValidators_settle` gets rid of the local copy: unless the updated validator is itself
  the one that is kicked, the walk over the index ends as `settle` does, which works on a store that
  holds the new record from the start.
* `updateValidator_cases` puts the two together.
-/

namespace Tepleton.Stake

open Lib

namespace Store

/-! ## What is left alone -/

/-- The store without the parts that bonding or unbonding a validator writes. -/
def bondFrame (s : Store) : Store :=
  { s with pool := initialPool, validators := ∅, validatorsBonded := ∅, tendermintUpdates := ∅ }

/-- The store without the parts that the walk over the by-power index writes. -/
def walkFrame (s : Store) : Store :=
  { s.bondFrame with validatorCliff := none, validatorPowerCliff := none }

/-- The store without the parts that updating a validator writes. -/
def updateFrame (s : Store) : Store :=
  { s.walkFrame with validatorsByPower := ∅, intraTxCounter := 0 }

/-! ## Bonding and unbonding -/

/-- The store after `v` has become bonded. -/
def bondedWith (s : Store) (v : Validator) (pool : Pool) : Store :=
  { s with
    pool
    validators := s.validators.insert v.owner v
    validatorsBonded := s.validatorsBonded.insert v.owner v.owner
    tendermintUpdates := s.tendermintUpdates.insert v.owner v.wrspValidator }

/-- The store after `v` has become unbonded. -/
def unbondedWith (s : Store) (v : Validator) (pool : Pool) : Store :=
  { s with
    pool
    validators := s.validators.insert v.owner v
    validatorsBonded := s.validatorsBonded.erase v.owner
    tendermintUpdates := s.tendermintUpdates.insert v.owner v.wrspValidatorZero }

variable {s s' : Store} {v v' : Validator}

@[simp] theorem getValidator_bondedWith (s : Store) (v : Validator) (pool : Pool) (a : Address) :
    (s.bondedWith v pool).getValidator a = if v.owner = a then some v else s.getValidator a :=
  KVStore.getElem?_insert _ _ _ _

@[simp] theorem getValidator_unbondedWith (s : Store) (v : Validator) (pool : Pool)
    (a : Address) :
    (s.unbondedWith v pool).getValidator a = if v.owner = a then some v else s.getValidator a :=
  KVStore.getElem?_insert _ _ _ _

theorem bondValidator_eq_ok :
    s.bondValidator v = .ok (s', v') ↔ v.status ≠ .bonded ∧
      ∃ pool, v.updateStatus s.pool .bonded = .ok (v', pool) ∧ s' = s.bondedWith v' pool := by
  unfold bondValidator
  split_ifs with hstatus
  · simp [hstatus]
  · simp only [bind_eq_ok, pure_eq_ok, Prod.exists, Prod.mk.injEq]
    constructor
    · rintro ⟨w, pool, hupdate, rfl, rfl⟩
      exact ⟨hstatus, pool, hupdate, rfl⟩
    · rintro ⟨-, pool, hupdate, rfl⟩
      exact ⟨v', pool, hupdate, rfl, rfl⟩

theorem unbondValidator_eq_ok :
    s.unbondValidator v = .ok (s', v') ↔ v.status ≠ .unbonded ∧
      ∃ pool, v.updateStatus s.pool .unbonded = .ok (v', pool) ∧ s' = s.unbondedWith v' pool := by
  unfold unbondValidator
  split_ifs with hstatus
  · simp [hstatus]
  · simp only [bind_eq_ok, pure_eq_ok, Prod.exists, Prod.mk.injEq]
    constructor
    · rintro ⟨w, pool, hupdate, rfl, rfl⟩
      exact ⟨hstatus, pool, hupdate, rfl⟩
    · rintro ⟨-, pool, hupdate, rfl⟩
      exact ⟨v', pool, hupdate, rfl, rfl⟩

theorem getIndexed_eq_ok {address : Address} :
    s.getIndexed address = .ok v ↔ s.getValidator address = some v := by
  unfold getIndexed
  split <;> simp_all

theorem kick_eq_ok {cliff : Option Address} :
    s.kick cliff = .ok s' ↔ (cliff = none ∧ s' = s) ∨
      ∃ addr v v', cliff = some addr ∧ s.getValidator addr = some v ∧
        s.unbondValidator v = .ok (s', v') := by
  cases cliff with
  | none => simp [kick, eq_comm]
  | some addr =>
    simp only [kick, bind_eq_ok, getIndexed_eq_ok, pure_eq_ok, Prod.exists]
    simp

/-! ## The index brought up to date -/

/-- The by-power index after a validator's key has been replaced. -/
def reindexed (s : Store) (oldKey key : Bytes) (owner : Address) : KVStore Bytes Address :=
  (s.validatorsByPower.erase oldKey).insert key owner

/-- The three ways to get through the first half of `UpdateValidator` for a stored validator: a
bonded validator that has been revoked is unbonded, any other bonded validator keeps its place in
line, and one that is not bonded goes to the end of the line. -/
theorem rerank_cases {ctx : Ctx} {w : Validator} {key : Bytes}
    (hold : s.getValidator v.owner = some w) (h : s.rerank ctx v = .ok (s', v', key)) :
    ∃ oldKey, getValidatorsByPowerIndexKey w s.pool = .ok oldKey ∧
      getValidatorsByPowerIndexKey v' s.pool = .ok key ∧
      ((v.revoked = true ∧ w.status = .bonded ∧ ∃ s₀ v₀, s.unbondValidator v = .ok (s₀, v₀) ∧
          v' = v₀.stamped w.bondHeight w.bondIntraTxCounter ∧
          s' = { s₀.clearCliffValidator with
            validatorsByPower := s.reindexed oldKey key v.owner }) ∨
        (v.revoked = false ∧ w.status = .bonded ∧
          v' = v.stamped w.bondHeight w.bondIntraTxCounter ∧
          s' = { s with validatorsByPower := s.reindexed oldKey key v.owner }) ∨
        (w.status ≠ .bonded ∧ v' = v.stamped ctx.blockHeight s.intraTxCounter ∧
          s' = { s.setIntraTxCounter (int16 (s.intraTxCounter + 1)) with
            validatorsByPower := s.reindexed oldKey key v.owner })) := by
  simp only [rerank, hold, unbondRevoked, oldStatus, Option.elim_some, unindex, stamp, bind_eq_ok,
    pure_eq_ok, Prod.exists, Prod.mk.injEq] at h
  obtain ⟨s₀, v₀, hunbond, s₁, ⟨oldKey, holdKey, rfl⟩, key', hkey, rfl, rfl, rfl⟩ := h
  split_ifs at hunbond with hrevoked
  · simp only [bind_eq_ok, pure_eq_ok, Prod.exists, Prod.mk.injEq] at hunbond
    obtain ⟨s₂, v₂, hunbond, rfl, rfl⟩ := hunbond
    have howner : v₂.owner = v.owner ∧ s₂.validatorsByPower = s.validatorsByPower := by
      obtain ⟨-, pool, hstatus, rfl⟩ := unbondValidator_eq_ok.mp hunbond
      obtain ⟨hv₂, -⟩ := Validator.updateStatus_eq_ok hstatus
      rw [hv₂]
      exact ⟨rfl, rfl⟩
    rw [if_pos hrevoked.2] at hkey
    refine ⟨oldKey, holdKey, ?_, .inl ⟨hrevoked.1, hrevoked.2, s₂, v₂, hunbond, ?_⟩⟩
    · rwa [if_pos hrevoked.2]
    · rw [if_pos hrevoked.2]
      exact ⟨rfl, by simp [clearCliffValidator, reindexed, Validator.stamped, howner]⟩
  · obtain ⟨rfl, rfl⟩ := Prod.mk.inj (Except.ok.inj hunbond)
    refine ⟨oldKey, holdKey, hkey, .inr ?_⟩
    by_cases hbonded : w.status = .bonded
    · have hunrevoked : v.revoked = false := by simpa [hbonded] using hrevoked
      exact .inl ⟨hunrevoked, hbonded, by simp [hbonded], by simp [hbonded, reindexed,
        Validator.stamped]⟩
    · exact .inr ⟨hbonded, by simp [hbonded, stamp.fresh], by simp [hbonded, reindexed, stamp.fresh,
        Validator.stamped, setIntraTxCounter]⟩

/-! ## The walk without the local copy -/

/-- One round of the walk on a store that holds the record of the updated validator. -/
def enter (newValidator : Validator) (s : Store) (ownerAddr : Address) : Outcome Store := do
  let validator ← s.current newValidator ownerAddr
  if validator.Enters then
    let (s, _) ← s.bondValidator validator
    return s
  else if validator.revoked ∧ validator.status = .bonded then
    throw (.panic (.revokedValidatorCannotBeBonded ownerAddr))
  else return s

/-- The walk bonds the validator behind this entry. -/
def Entering (s : Store) (newValidator : Validator) (ownerAddr : Address) : Prop :=
  ∃ v ∈ (s.current newValidator ownerAddr).toOption, v.Enters

instance (s : Store) (newValidator : Validator) (ownerAddr : Address) :
    Decidable (s.Entering newValidator ownerAddr) :=
  inferInstanceAs (Decidable (∃ v ∈ _, _))

/-- The owners the walk visits. -/
def visited (s : Store) : List Address := s.byPower.take s.params.maxValidators

/-- The cliff is set to the last of `owners` if they take all the places. -/
def refreshCliff (s : Store) (owners : List Address) : Outcome Store :=
  if owners.length = s.params.maxValidators then do
    let cliff ← s.getIndexed (owners.getLast?.getD [])
    s.setCliffValidator cliff s.pool
  else .ok s

theorem entering_iff {new : Validator} {a : Address} :
    s.Entering new a ↔ ∃ v, s.current new a = .ok v ∧ v.Enters := by
  unfold Entering
  cases s.current new a <;> simp [Except.toOption]

theorem current_eq_ok {new w : Validator} {a : Address} :
    s.current new a = .ok w ↔
      (a = new.owner ∧ w = new) ∨ (a ≠ new.owner ∧ s.getValidator a = some w) := by
  unfold current
  split_ifs with ha
  · simp [ha, eq_comm]
  · simp [ha, getIndexed_eq_ok]

end Store

namespace BondLoop

open Tepleton.Stake.Store

theorem next_eq_ok {new : Validator} {l l' : BondLoop} {a : Address}
    (h : l.next new a = .ok l') :
    ∃ w, l.store.current new a = .ok w ∧
      ((w.Enters ∧ ∃ s w', l.store.bondValidator w = .ok (s, w') ∧
          l' = ⟨s, l.bondedValidatorsCount + 1, some w', true,
            if a = new.owner then some w' else l.updatedVal⟩) ∨
        (¬ w.Enters ∧ ¬ (w.revoked = true ∧ w.status = .bonded) ∧
          l' = { l with bondedValidatorsCount := l.bondedValidatorsCount + 1
                        validator := some w })) := by
  simp only [next, bind_eq_ok] at h
  obtain ⟨w, hw, h⟩ := h
  refine ⟨w, hw, ?_⟩
  by_cases henters : w.Enters
  · rw [if_pos henters] at h
    simp only [bind_eq_ok, pure_eq_ok, Prod.exists] at h
    obtain ⟨s, w', hbond, hl⟩ := h
    exact .inl ⟨henters, s, w', hbond, hl.symm⟩
  · rw [if_neg henters] at h
    by_cases hpanic : w.revoked = true ∧ w.status = .bonded
    · rw [if_pos hpanic, throw_eq_ok] at h
      exact h.elim
    · rw [if_neg hpanic, pure_eq_ok] at h
      exact .inr ⟨henters, hpanic, h.symm⟩

/-- The loop is a fold over the first `maxValidators` owners, followed by `finish`. -/
theorem loop_eq {max : Fin (2 ^ 16)} (hmax : 0 < max.val) (new : Validator) (owners : List Address)
    (l : BondLoop) :
    loop max new owners l =
      ((owners.take (max - l.bondedValidatorsCount)).foldlM (next new) l >>= finish max) := by
  have hpred : (max - 1).val = max.val - 1 := by
    apply Fin.val_sub_one_of_ne_zero
    intro hzero
    simp [hzero] at hmax
  induction owners generalizing l with
  | nil => simp [loop]
  | cons a owners ih =>
    rw [loop]
    split_ifs with hfull
    · have hzero : max.val - l.bondedValidatorsCount = 0 := by omega
      simp [hzero]
    · obtain ⟨places, hplaces⟩ : ∃ n, max.val - l.bondedValidatorsCount = n + 1 :=
        ⟨max.val - l.bondedValidatorsCount - 1, by omega⟩
      rw [hplaces, List.take_succ_cons, List.foldlM_cons, bind_assoc]
      cases hnext : l.next new a with
      | error fault => rfl
      | ok l' =>
        have hcount : l'.bondedValidatorsCount = l.bondedValidatorsCount + 1 := by
          obtain ⟨w, -, ⟨-, s, w', -, rfl⟩ | ⟨-, -, rfl⟩⟩ := next_eq_ok hnext <;> rfl
        have hleft : max.val - l'.bondedValidatorsCount = places := by omega
        have := ih l'
        rw [hleft] at this
        exact this

/-- The store as it would be if the local copy had been written at once. -/
def view (new : Validator) (l : BondLoop) : Store := l.store.setValidator (l.updatedVal.getD new)

end BondLoop

namespace Store

/-- Every validator is stored under its owner's address. -/
def Keyed (s : Store) : Prop := ∀ a w, s.getValidator a = some w → w.owner = a

variable {s : Store} {a : Address} {s' : Store} {new : Validator}

theorem Keyed.stored (hkeyed : s.Keyed) {w : Validator} (h : s.getValidator a = some w) :
    s.getValidator w.owner = some w := by
  rw [hkeyed a w h, h]

theorem Keyed.insert (hkeyed : s.Keyed) (v : Validator) :
    ∀ (a : Address) (w : Validator), (s.validators.insert v.owner v)[a]? = some w →
      w.owner = a := by
  intro a w hw
  rw [KVStore.getElem?_insert] at hw
  split_ifs at hw with ha
  · rw [← ha, ← Option.some.inj hw]
  · exact hkeyed a w hw

theorem Keyed.setValidator (hkeyed : s.Keyed) (v : Validator) : (s.setValidator v).Keyed :=
  hkeyed.insert v

theorem bondValidator_setValidator {v v' : Validator} (c : Validator)
    (h : s.bondValidator v = .ok (s', v')) :
    (s.setValidator c).bondValidator v =
      .ok (s'.setValidator (if c.owner = v.owner then v' else c), v') := by
  obtain ⟨hstatus, pool, hupdate, rfl⟩ := bondValidator_eq_ok.mp h
  refine bondValidator_eq_ok.mpr ⟨hstatus, pool, hupdate, ?_⟩
  have howner : v'.owner = v.owner := by
    rw [(Validator.updateStatus_eq_ok hupdate).1]
  split_ifs with hc
  · simp only [bondedWith, setValidator, howner, hc, KVStore.insert_insert_self]
  · simp only [bondedWith, setValidator, howner]
    rw [KVStore.insert_comm _ _ _ (Ne.symm hc)]

theorem unbondValidator_setValidator {v v' c : Validator} (hc : c.owner ≠ v.owner)
    (h : s.unbondValidator v = .ok (s', v')) :
    (s.setValidator c).unbondValidator v = .ok (s'.setValidator c, v') := by
  obtain ⟨hstatus, pool, hupdate, rfl⟩ := unbondValidator_eq_ok.mp h
  refine unbondValidator_eq_ok.mpr ⟨hstatus, pool, hupdate, ?_⟩
  have howner : v'.owner = v.owner := by
    rw [(Validator.updateStatus_eq_ok hupdate).1]
  simp only [unbondedWith, setValidator, howner]
  rw [KVStore.insert_comm _ _ _ hc.symm]

theorem enter_eq_ok :
    s.enter new a = .ok s' ↔ ∃ w, s.current new a = .ok w ∧
      ((w.Enters ∧ ∃ w', s.bondValidator w = .ok (s', w')) ∨
        (¬ w.Enters ∧ ¬ (w.revoked = true ∧ w.status = .bonded) ∧ s' = s)) := by
  simp only [enter, bind_eq_ok]
  refine exists_congr fun w => and_congr_right fun _ => ?_
  by_cases henters : w.Enters
  · simp only [henters, if_true, bind_eq_ok, pure_eq_ok, Prod.exists, true_and, not_true,
      false_and, or_false]
    constructor
    · rintro ⟨t, w', hbond, rfl⟩
      exact ⟨w', hbond⟩
    · rintro ⟨w', hbond⟩
      exact ⟨s', w', hbond, rfl⟩
  · rw [if_neg henters]
    by_cases hpanic : w.revoked = true ∧ w.status = .bonded
    · rw [if_pos hpanic, throw_eq_ok]
      simp [henters, hpanic]
    · rw [if_neg hpanic, pure_eq_ok]
      simp only [henters, false_and, hpanic, not_false_iff, true_and, false_or]
      exact eq_comm

theorem enter_bondFrame (h : s.enter new a = .ok s') : s'.bondFrame = s.bondFrame := by
  obtain ⟨w, -, ⟨-, w', hbond⟩ | ⟨-, -, rfl⟩⟩ := enter_eq_ok.mp h
  · obtain ⟨-, pool, -, rfl⟩ := bondValidator_eq_ok.mp hbond
    rfl
  · rfl

theorem foldlM_enter_bondFrame {owners : List Address} (h : owners.foldlM (enter new) s = .ok s') :
    s'.bondFrame = s.bondFrame :=
  foldlM_invariant (fun t => t.bondFrame = s.bondFrame) rfl
    (fun _ ht henter => (enter_bondFrame henter).trans ht) h

end Store

namespace BondLoop

open Tepleton.Stake.Store

/-- What every round of the loop may rely on. -/
structure Sound (new : Validator) (l : BondLoop) : Prop where
  copy : (l.updatedVal.getD new).owner = new.owner
  entered : l.updatedVal.isSome → new.Enters
  keyed : l.store.Keyed

variable {new : Validator} {l : BondLoop}

theorem current_view (hl : l.Sound new) (a : Address) :
    (l.view new).current new a = l.store.current new a := by
  unfold current
  split_ifs with ha
  · rfl
  · simp only [getIndexed, view, getValidator_setValidator, hl.copy, Ne.symm ha, if_false]

/-- A round of the loop is a round of the walk on the store with the copy written, and the record
it looked at is the one this store has. -/
theorem enter_of_next {l' : BondLoop} {a : Address} (hl : l.Sound new) (h : l.next new a = .ok l') :
    (l.view new).enter new a = .ok (l'.view new) ∧ l'.Sound new ∧
      ∃ w, l'.validator = some w ∧ (l'.view new).getValidator a = some w := by
  obtain ⟨w, hw, hcase⟩ := next_eq_ok h
  have hcurrent : (l.view new).current new a = .ok w := by rwa [current_view hl]
  rcases hcase with ⟨henters, s, w', hbond, rfl⟩ | ⟨henters, hpanic, rfl⟩
  · have hview := bondValidator_setValidator (l.updatedVal.getD new) hbond
    obtain ⟨-, pool, hupdate, rfl⟩ := bondValidator_eq_ok.mp hbond
    have hw' : w'.owner = w.owner := by rw [(Validator.updateStatus_eq_ok hupdate).1]
    have hkeyed : (l.store.bondedWith w' pool).Keyed := hl.keyed.insert w'
    rcases current_eq_ok.mp hw with ⟨rfl, rfl⟩ | ⟨ha, hstored⟩
    · rw [hl.copy, if_pos rfl] at hview
      refine ⟨enter_eq_ok.mpr ⟨w, hcurrent, .inl ⟨henters, w', ?_⟩⟩, ⟨?_, fun _ => henters, hkeyed⟩,
        w', rfl, ?_⟩
      · simpa [view] using hview
      · simpa using hw'
      · simp [view, getValidator_setValidator, hw']
    · have howner : w.owner = a := hl.keyed a w hstored
      rw [hl.copy, howner, if_neg (Ne.symm ha)] at hview
      refine ⟨enter_eq_ok.mpr ⟨w, hcurrent, .inl ⟨henters, w', ?_⟩⟩, ⟨?_, ?_, hkeyed⟩, w', rfl, ?_⟩
      · simpa [view, ha] using hview
      · simpa [ha] using hl.copy
      · simpa [ha] using hl.entered
      · simp [view, getValidator_setValidator, ha, hl.copy, Ne.symm ha, hw', howner]
  · refine ⟨enter_eq_ok.mpr ⟨w, hcurrent, .inr ⟨henters, hpanic, rfl⟩⟩, { hl with }, w, rfl, ?_⟩
    rcases current_eq_ok.mp hw with ⟨rfl, rfl⟩ | ⟨ha, hstored⟩
    · -- a copy that does not enter has never been replaced
      have hnone : l.updatedVal = none := by
        rw [← Option.not_isSome_iff_eq_none]
        exact fun hsome => henters (hl.entered hsome)
      simp [view, hnone]
    · simp [view, getValidator_setValidator, hl.copy, Ne.symm ha, hstored]

/-- The whole loop is the walk on the store with the copy written. -/
theorem foldlM_enter_of_next {owners : List Address} {l' : BondLoop} (hl : l.Sound new)
    (h : owners.foldlM (next new) l = .ok l') :
    owners.foldlM (enter new) (l.view new) = .ok (l'.view new) ∧ l'.Sound new ∧
      l'.bondedValidatorsCount = l.bondedValidatorsCount + owners.length ∧
      (l'.kickCliffValidator = true ↔ l.kickCliffValidator = true ∨
        ∃ a ∈ owners, (l.view new).Entering new a) ∧
      ∀ a, owners.getLast? = some a →
        ∃ w, l'.validator = some w ∧ (l'.view new).getValidator a = some w := by
  induction owners generalizing l with
  | nil =>
    cases h
    simp [hl, pure, Except.pure]
  | cons a owners ih =>
    rw [List.foldlM_cons, bind_eq_ok] at h
    obtain ⟨l₁, hnext, h⟩ := h
    obtain ⟨henter, hl₁, hlast⟩ := enter_of_next hl hnext
    obtain ⟨hfold, hl', hcount, hkick, hlast'⟩ := ih hl₁ h
    obtain ⟨w, hw, hcase⟩ := next_eq_ok hnext
    have hcurrent : (l.view new).current new a = .ok w := by rwa [current_view hl]
    refine ⟨?_, hl', ?_, ?_, ?_⟩
    · rw [List.foldlM_cons, henter]
      exact hfold
    · rcases hcase with ⟨-, s, w', -, rfl⟩ | ⟨-, -, rfl⟩ <;>
        simp only [List.length_cons] at hcount ⊢ <;> omega
    · rcases hcase with ⟨henters, s, w', -, rfl⟩ | ⟨henters, -, rfl⟩
      · have hentering := entering_iff.mpr ⟨w, hcurrent, henters⟩
        exact ⟨fun _ => .inr ⟨a, by simp, hentering⟩, fun _ => hkick.mpr (.inl rfl)⟩
      · -- nothing entered in this round, so the store is the same
        have hnot : ¬ (l.view new).Entering new a := by
          rw [entering_iff, hcurrent]
          rintro ⟨w', hw', henters'⟩
          exact henters (Except.ok.inj hw' ▸ henters')
        rw [hkick]
        simp only [List.exists_mem_cons_iff, hnot, false_or]
        rfl
    · intro b hb
      cases owners with
      | nil =>
        obtain rfl : a = b := by simpa using hb
        cases h
        exact hlast
      | cons a' owners => exact hlast' b (by simpa using hb)

end BondLoop

namespace Store

/-- Somebody is bonded by the walk. -/
def SomeoneEnters (t : Store) (new : Validator) : Prop := ∃ a ∈ t.visited, t.Entering new a

instance (t : Store) (new : Validator) : Decidable (t.SomeoneEnters new) :=
  inferInstanceAs (Decidable (∃ a ∈ _, _))

/-- `UpdateBondedValidators` on a store that holds the record of `newValidator` from the start. -/
def settle (t : Store) (newValidator : Validator) : Outcome Store := do
  let t₁ ← t.visited.foldlM (enter newValidator) t
  let t₂ ← t₁.refreshCliff t.visited
  t₂.kick (if t.SomeoneEnters newValidator then t.validatorCliff else none)

variable {s s' : Store}

theorem setCliffValidator_eq_ok {v : Validator} {pool : Pool} :
    s.setCliffValidator v pool = .ok s' ↔ ∃ key, getValidatorsByPowerIndexKey v pool = .ok key ∧
      s' = { s with validatorPowerCliff := some key, validatorCliff := some v.owner } := by
  simp only [setCliffValidator, bind_eq_ok, pure_eq_ok]
  exact exists_congr fun key => and_congr_right fun _ => eq_comm

/-- Setting the cliff commutes with writing the copy. -/
theorem refreshCliff_of_finish {new : Validator} {l l' : BondLoop} {owners : List Address}
    (hmax : 0 < l.store.params.maxValidators.val)
    (hcount : l.bondedValidatorsCount = owners.length)
    (hlast : ∀ a, owners.getLast? = some a →
      ∃ w, l.validator = some w ∧ (l.view new).getValidator a = some w)
    (h : l.finish l.store.params.maxValidators = .ok l') :
    (l.view new).refreshCliff owners = .ok (l'.view new) ∧ l'.updatedVal = l.updatedVal ∧
      l'.kickCliffValidator = l.kickCliffValidator ∧ l'.store.validators = l.store.validators := by
  unfold BondLoop.finish at h
  unfold refreshCliff
  rw [hcount] at h
  have hparams : (l.view new).params = l.store.params := rfl
  rw [hparams]
  split_ifs at h ⊢ with hfull
  · obtain ⟨a, ha⟩ : ∃ a, owners.getLast? = some a := by
      cases hnil : owners.getLast? with
      | none =>
        rw [List.getLast?_eq_none_iff] at hnil
        simp [hnil] at hfull
        omega
      | some a => exact ⟨a, rfl⟩
    obtain ⟨w, hw, hstored⟩ := hlast a ha
    simp only [hw, bind_eq_ok, pure_eq_ok, setCliffValidator_eq_ok] at h
    obtain ⟨s, ⟨key, hkey, rfl⟩, rfl⟩ := h
    refine ⟨?_, rfl, rfl, rfl⟩
    simp only [ha, Option.getD_some, bind_eq_ok, getIndexed_eq_ok, hstored, setCliffValidator_eq_ok]
    exact ⟨w, rfl, key, hkey, rfl⟩
  · cases h
    exact ⟨rfl, rfl, rfl, rfl⟩

/-- Unless the updated validator is itself kicked, its deferred write makes no difference. -/
theorem updateBondedValidators_settle {new : Validator} {updated : Option Validator}
    (hmax : 0 < s.params.maxValidators.val) (hkeyed : s.Keyed)
    (hself : (s.setValidator new).SomeoneEnters new → s.validatorCliff ≠ some new.owner)
    (h : s.updateBondedValidators new = .ok (s', updated)) :
    (s.setValidator new).settle new = .ok (s'.setValidator (updated.getD new)) := by
  simp only [updateBondedValidators, BondLoop.loop_eq hmax, Nat.sub_zero, bind_eq_ok, pure_eq_ok,
    Prod.mk.injEq] at h
  obtain ⟨l', ⟨l, hfold, hfinish⟩, s'', hkick, rfl, rfl⟩ := h
  obtain ⟨henter, hl, hcount, hflag, hlast⟩ := BondLoop.foldlM_enter_of_next
    (l := ⟨s, 0, none, false, none⟩) ⟨rfl, by simp, hkeyed⟩ hfold
  have hparams : l.store.params = s.params := by
    have hframe := congrArg params (foldlM_enter_bondFrame henter)
    exact hframe
  rw [← hparams] at hmax hfinish
  obtain ⟨hrefresh, hupdated, hflag', hvalidators⟩ := refreshCliff_of_finish hmax
    (by simpa using hcount) hlast hfinish
  refine bind_eq_ok.mpr ⟨l.view new, henter, bind_eq_ok.mpr ⟨l'.view new, hrefresh, ?_⟩⟩
  have hflag'' : l'.kickCliffValidator = true ↔ (s.setValidator new).SomeoneEnters new := by
    rw [hflag', hflag]
    simp [SomeoneEnters, visited, BondLoop.view]
    rfl
  simp only [hflag''] at hkick
  by_cases hsomeone : (s.setValidator new).SomeoneEnters new
  · rw [if_pos hsomeone] at hkick ⊢
    rcases kick_eq_ok.mp hkick with ⟨hcliff, rfl⟩ | ⟨addr, v, v', hcliff, hv, hunbond⟩
    · exact kick_eq_ok.mpr (.inl ⟨hcliff, rfl⟩)
    · have haddr : new.owner ≠ addr := by
        rintro rfl
        exact hself hsomeone hcliff
      have hcopy : (l'.updatedVal.getD new).owner = new.owner := by rw [hupdated, hl.copy]
      have hv₀ : l.store.getValidator addr = some v := by rwa [getValidator, ← hvalidators]
      have howner : v.owner = addr := hl.keyed addr v hv₀
      refine kick_eq_ok.mpr (.inr ⟨addr, v, v', hcliff, ?_, ?_⟩)
      · rw [BondLoop.view, getValidator_setValidator, hcopy, if_neg haddr, hv]
      · exact unbondValidator_setValidator (by rwa [hcopy, howner]) hunbond
  · rw [if_neg hsomeone] at hkick ⊢
    cases hkick
    rfl

/-! ## One update as a whole -/

theorem updateValidator_cases {ctx : Ctx} {v v' : Validator}
    (h : s.updateValidator ctx v = .ok (s', v')) :
    ∃ s₁ v₁ key, s.rerank ctx v = .ok (s₁, v₁, key) ∧
      ((onlyIncreases (s.getValidator v.owner) v₁ ∧ v' = v₁ ∧
          s' = (s₁.setTendermintUpdate v₁.owner v₁.wrspValidator).setValidator v₁) ∨
        (¬ onlyIncreases (s.getValidator v.owner) v₁ ∧
          s₁.belowCliff (s.getValidator v.owner) key ∧ v' = v₁ ∧ s' = s₁.setValidator v₁) ∨
        (¬ onlyIncreases (s.getValidator v.owner) v₁ ∧
          ¬ s₁.belowCliff (s.getValidator v.owner) key ∧
          ∃ s₂ updated, s₁.updateBondedValidators v₁ = .ok (s₂, updated) ∧
            v' = updated.getD v₁ ∧ s' = s₂.setValidator v')) := by
  simp only [updateValidator, bind_eq_ok, Prod.exists] at h
  obtain ⟨s₁, v₁, key, hrerank, h⟩ := h
  refine ⟨s₁, v₁, key, hrerank, ?_⟩
  by_cases hincreases : onlyIncreases (s.getValidator v.owner) v₁
  · rw [if_pos hincreases, pure_eq_ok, Prod.mk.injEq] at h
    exact .inl ⟨hincreases, h.2.symm, h.1.symm⟩
  rw [if_neg hincreases] at h
  by_cases hbelow : s₁.belowCliff (s.getValidator v.owner) key
  · rw [if_pos hbelow, pure_eq_ok, Prod.mk.injEq] at h
    exact .inr (.inl ⟨hincreases, hbelow, h.2.symm, h.1.symm⟩)
  · rw [if_neg hbelow] at h
    simp only [bind_eq_ok, pure_eq_ok, Prod.exists, Prod.mk.injEq] at h
    obtain ⟨s₂, updated, hupdate, rfl, rfl⟩ := h
    exact .inr (.inr ⟨hincreases, hbelow, s₂, updated, hupdate, rfl, rfl⟩)

end Store

end Tepleton.Stake
