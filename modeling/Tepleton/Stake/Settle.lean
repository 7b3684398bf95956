import Tepleton.Stake.Keeper.Frame

/-!
# Updates that settle

`updateValidator` works on a copy of the validator and writes it at the end.  If the validator that
is kicked at the end of the walk is the one being updated, this last write undoes the kick: the
record says bonded again, while the bonded index, the pool and the queued update do not.

`Settles` excludes this, and the copy being bonded twice because it has two index entries.  Under
this condition an update is a sequence of plain bondings and unbondings of stored validators, and an
invariant survives it if it survives those: this is `Settling.updateValidator`.
-/

namespace Tepleton.Stake

open Lib

namespace Store

/-! ## The places taken after an update -/

/-- The copy of `v` that gets a new key, when `w` is the old record: unbonded if it was bonded and
is revoked, and with its old or a new place in line. -/
def rankedCopy (ctx : Ctx) (s : Store) (w v : Validator) : Outcome Validator :=
  if v.revoked = true ∧ w.status = .bonded then do
    let (v, _) ← v.updateStatus s.pool .unbonded
    return v.stamped w.bondHeight w.bondIntraTxCounter
  else if w.status = .bonded then .ok (v.stamped w.bondHeight w.bondIntraTxCounter)
  else .ok (v.stamped ctx.blockHeight s.intraTxCounter)

/-- The owners of the first `maxValidators` entries of the by-power index once the key of the old
record `w` has given way to the one of `v`. -/
def places (ctx : Ctx) (s : Store) (w v : Validator) : Outcome (List Address) := do
  let copy ← s.rankedCopy ctx w v
  let oldKey ← getValidatorsByPowerIndexKey w s.pool
  let key ← getValidatorsByPowerIndexKey copy s.pool
  return ((s.reindexed oldKey key v.owner).descending.map Prod.snd).take s.params.maxValidators

/-- The cliff at the time of the walk: it is cleared when a bonded validator is revoked. -/
def cliffBefore (s : Store) (w v : Validator) : Option Address :=
  if v.revoked = true ∧ w.status = .bonded then none else s.validatorCliff

/-- The walk does not kick the updated validator itself and meets it at most once. -/
def Settles (ctx : Ctx) (s : Store) (v : Validator) : Prop :=
  ∀ w ∈ s.getValidator v.owner,
    Returns (fun places =>
        ((∃ a ∈ places, s.Entering v a) → s.cliffBefore w v ≠ some v.owner) ∧
          (v.Enters → places.count v.owner ≤ 1))
      (s.places ctx w v)

instance (ctx : Ctx) (s : Store) (v : Validator) : Decidable (s.Settles ctx v) :=
  inferInstanceAs (Decidable (∀ w ∈ _, Returns _ _))

section Rerank

variable {ctx : Ctx} {s s₁ : Store} {w v v₁ : Validator} {key : Bytes}

/-- What the first half of an update leads to, in the terms of the conditions above. -/
theorem rerank_places (hw : s.getValidator v.owner = some w)
    (h : s.rerank ctx v = .ok (s₁, v₁, key)) :
    s.rankedCopy ctx w v = .ok v₁ ∧ s.places ctx w v = .ok s₁.visited ∧
      s₁.validatorCliff = s.cliffBefore w v ∧ s₁.params = s.params := by
  obtain ⟨oldKey, holdKey, hkey, hcase⟩ := rerank_cases hw h
  have hplaces : s.rankedCopy ctx w v = .ok v₁ →
      s₁.validatorsByPower = s.reindexed oldKey key v.owner → s₁.params = s.params →
      s.places ctx w v = .ok s₁.visited := by
    intro hcopy hindex hparams
    simp only [places, bind_eq_ok, pure_eq_ok, visited, byPower, hindex, hparams]
    exact ⟨v₁, hcopy, oldKey, holdKey, key, hkey, rfl⟩
  rcases hcase with ⟨hrevoked, hbonded, s₀, v₀, hunbond, rfl, rfl⟩ |
    ⟨hrevoked, hbonded, rfl, rfl⟩ | ⟨hbonded, rfl, rfl⟩
  · obtain ⟨-, pool, hstatus, rfl⟩ := unbondValidator_eq_ok.mp hunbond
    have hcopy : s.rankedCopy ctx w v = .ok (v₀.stamped w.bondHeight w.bondIntraTxCounter) := by
      rw [rankedCopy, if_pos ⟨hrevoked, hbonded⟩, hstatus]
      rfl
    exact ⟨hcopy, hplaces hcopy rfl rfl, by rw [cliffBefore, if_pos ⟨hrevoked, hbonded⟩]; rfl, rfl⟩
  · have hnot : ¬ (v.revoked = true ∧ w.status = .bonded) := by simp [hrevoked]
    have hcopy : s.rankedCopy ctx w v = .ok (v.stamped w.bondHeight w.bondIntraTxCounter) := by
      rw [rankedCopy, if_neg hnot, if_pos hbonded]
    exact ⟨hcopy, hplaces hcopy rfl rfl, by rw [cliffBefore, if_neg hnot], rfl⟩
  · have hnot : ¬ (v.revoked = true ∧ w.status = .bonded) := by simp [hbonded]
    have hcopy : s.rankedCopy ctx w v = .ok (v.stamped ctx.blockHeight s.intraTxCounter) := by
      rw [rankedCopy, if_neg hnot, if_neg hbonded]
    exact ⟨hcopy, hplaces hcopy rfl rfl, by rw [cliffBefore, if_neg hnot]; rfl, rfl⟩

theorem rerank_getValidator (hw : s.getValidator v.owner = some w)
    (h : s.rerank ctx v = .ok (s₁, v₁, key)) {a : Address} (ha : a ≠ v.owner) :
    s₁.getValidator a = s.getValidator a := by
  obtain ⟨oldKey, -, -, hcase⟩ := rerank_cases hw h
  rcases hcase with ⟨-, -, s₀, v₀, hunbond, rfl, rfl⟩ | ⟨-, -, rfl, rfl⟩ | ⟨-, rfl, rfl⟩
  · obtain ⟨-, pool, hstatus, rfl⟩ := unbondValidator_eq_ok.mp hunbond
    have howner : v₀.owner = v.owner := by rw [(Validator.updateStatus_eq_ok hstatus).1]
    have hget := getValidator_unbondedWith s v₀ pool a
    rw [howner, if_neg ha.symm] at hget
    exact hget
  · rfl
  · rfl

theorem rerank_enters (hw : s.getValidator v.owner = some w)
    (h : s.rerank ctx v = .ok (s₁, v₁, key)) : v₁.owner = v.owner ∧ (v₁.Enters ↔ v.Enters) := by
  obtain ⟨oldKey, -, -, hcase⟩ := rerank_cases hw h
  rcases hcase with ⟨hrevoked, -, s₀, v₀, hunbond, rfl, rfl⟩ | ⟨-, -, rfl, rfl⟩ | ⟨-, rfl, rfl⟩
  · obtain ⟨-, pool, hstatus, rfl⟩ := unbondValidator_eq_ok.mp hunbond
    have hv₀ := (Validator.updateStatus_eq_ok hstatus).1
    have hrevoked₀ : v₀.revoked = true := by rw [hv₀]; exact hrevoked
    refine ⟨by rw [hv₀]; rfl, ?_⟩
    simp [Validator.Enters, Validator.stamped, hrevoked, hrevoked₀]
  · exact ⟨rfl, Iff.rfl⟩
  · exact ⟨rfl, Iff.rfl⟩

theorem rerank_entering (hw : s.getValidator v.owner = some w)
    (h : s.rerank ctx v = .ok (s₁, v₁, key)) (a : Address) :
    (s₁.setValidator v₁).Entering v₁ a ↔ s.Entering v a := by
  obtain ⟨howner, henters⟩ := rerank_enters hw h
  rw [entering_iff, entering_iff]
  by_cases ha : a = v.owner
  · simp [current, ha, howner, henters]
  · have hget : (s₁.setValidator v₁).getValidator a = s.getValidator a := by
      rw [getValidator_setValidator, howner, if_neg (Ne.symm ha), rerank_getValidator hw h ha]
    simp only [current, howner, ha, if_false, getIndexed, hget]

theorem Settles.rerank (hsettles : s.Settles ctx v) (hw : s.getValidator v.owner = some w)
    (h : s.rerank ctx v = .ok (s₁, v₁, key)) :
    ((s₁.setValidator v₁).SomeoneEnters v₁ → s₁.validatorCliff ≠ some v₁.owner) ∧
      (v₁.Enters → s₁.visited.count v₁.owner ≤ 1) := by
  obtain ⟨-, hplaces, hcliff, -⟩ := rerank_places hw h
  obtain ⟨howner, henters⟩ := rerank_enters hw h
  obtain ⟨hspares, hcount⟩ := (hsettles w hw).of_ok hplaces
  rw [hcliff, howner, henters]
  refine ⟨fun ⟨a, ha, hentering⟩ => hspares ⟨a, ha, ?_⟩, hcount⟩
  exact (rerank_entering hw h a).mp hentering

end Rerank

/-- The three ways an update that settles can end. -/
theorem updateValidator_settle {ctx : Ctx} {s s' : Store} {w v v' : Validator}
    (hmax : 0 < s.params.maxValidators.val) (hkeyed : s.Keyed)
    (hw : s.getValidator v.owner = some w) (hsettles : s.Settles ctx v)
    (h : s.updateValidator ctx v = .ok (s', v')) :
    ∃ s₁ v₁ key, s.rerank ctx v = .ok (s₁, v₁, key) ∧
      ((onlyIncreases (some w) v₁ ∧
          s' = (s₁.setTendermintUpdate v₁.owner v₁.wrspValidator).setValidator v₁) ∨
        (¬ onlyIncreases (some w) v₁ ∧ s₁.belowCliff (some w) key ∧ s' = s₁.setValidator v₁) ∨
        (¬ onlyIncreases (some w) v₁ ∧ ¬ s₁.belowCliff (some w) key ∧
          (s₁.setValidator v₁).settle v₁ = .ok s')) := by
  obtain ⟨s₁, v₁, key, hrerank, hcase⟩ := updateValidator_cases h
  rw [hw] at hcase
  refine ⟨s₁, v₁, key, hrerank, ?_⟩
  rcases hcase with ⟨hinc, rfl, rfl⟩ | ⟨hinc, hbelow, rfl, rfl⟩ |
    ⟨hinc, hbelow, s₂, updated, hwalk, rfl, rfl⟩
  · exact .inl ⟨hinc, rfl⟩
  · exact .inr (.inl ⟨hinc, hbelow, rfl⟩)
  · obtain ⟨-, -, -, hparams⟩ := rerank_places hw hrerank
    have hkeyed₁ := (rerank_touches hkeyed hw hrerank).1.keyed
    exact .inr (.inr ⟨hinc, hbelow, updateBondedValidators_settle (by rwa [hparams]) hkeyed₁
      (hsettles.rerank hw hrerank).1 hwalk⟩)

end Store

/-! ## Invariants of updates that settle -/

/-- `Inv` does not depend on ranks and cliffs and survives the bonding and unbonding of stored
validators. -/
structure Settling (Inv : Store → Prop) : Prop where
  ranks : ∀ {s : Store} (validatorsByPower intraTxCounter validatorCliff validatorPowerCliff),
    Inv s →
      Inv { s with validatorsByPower, intraTxCounter, validatorCliff, validatorPowerCliff }
  restamp : ∀ {s : Store} {v : Validator} (height counter : ℤ), s.Keyed →
    s.getValidator v.owner = some v → Inv s → Inv (s.setValidator (v.stamped height counter))
  bond : ∀ {s s' : Store} {v v' : Validator}, s.Keyed → s.getValidator v.owner = some v →
    v.Enters → s.bondValidator v = .ok (s', v') → Inv s → Inv s'
  unbond : ∀ {s s' : Store} {v v' : Validator}, s.Keyed → s.getValidator v.owner = some v →
    s.unbondValidator v = .ok (s', v') → Inv s → Inv s'

namespace Settling

open Tepleton.Stake.Store

variable {Inv : Store → Prop}

variable {t t' s : Store} {v : Validator}

theorem foldlM_enter (m : Settling Inv) {new : Validator} {owners : List Address} (hkeyed : t.Keyed)
    (hcopy : new.Enters → owners.count new.owner ≤ 1 ∧
      (new.owner ∈ owners → t.getValidator new.owner = some new))
    (h : owners.foldlM (enter new) t = .ok t') (hInv : Inv t) : t'.Keyed ∧ Inv t' := by
  induction owners generalizing t with
  | nil =>
    cases h
    exact ⟨hkeyed, hInv⟩
  | cons a owners ih =>
    rw [List.foldlM_cons, bind_eq_ok] at h
    obtain ⟨t₁, henter, h⟩ := h
    obtain ⟨w, hw, ⟨henters, w', hbond⟩ | ⟨-, -, rfl⟩⟩ := enter_eq_ok.mp henter
    · obtain ⟨-, pool, hstatus, ht₁⟩ := bondValidator_eq_ok.mp hbond
      have hw' : w'.owner = w.owner := by rw [(Validator.updateStatus_eq_ok hstatus).1]
      have hkeyed₁ : t₁.Keyed := ht₁ ▸ hkeyed.insert w'
      rcases current_eq_ok.mp hw with ⟨rfl, rfl⟩ | ⟨ha, hstored⟩
      · -- the copy is met, and it will not be met again
        obtain ⟨hcount, hstored⟩ := hcopy henters
        have hgone : w.owner ∉ owners := by
          rw [List.count_cons_self] at hcount
          exact List.count_eq_zero.mp (by omega)
        refine ih hkeyed₁ (fun _ => ?_) h (m.bond hkeyed (hstored (by simp)) henters hbond hInv)
        exact ⟨by rw [List.count_eq_zero.mpr hgone]; omega, fun hmem => absurd hmem hgone⟩
      · have howner : w.owner = a := hkeyed a w hstored
        refine ih hkeyed₁ (fun hnew => ?_) h (m.bond hkeyed (by rwa [howner]) henters hbond hInv)
        obtain ⟨hcount, hnewStored⟩ := hcopy hnew
        rw [List.count_cons_of_ne ha] at hcount
        refine ⟨hcount, fun hmem => ?_⟩
        rw [ht₁, getValidator_bondedWith, hw', howner, if_neg ha]
        exact hnewStored (by simp [hmem])
    · refine ih hkeyed (fun hnew => ?_) h hInv
      obtain ⟨hcount, hnewStored⟩ := hcopy hnew
      exact ⟨(List.count_le_count_cons ..).trans hcount, fun hmem => hnewStored (by simp [hmem])⟩

theorem refreshCliff (m : Settling Inv) {owners : List Address} (h : t.refreshCliff owners = .ok t')
    (hInv : Inv t) : Inv t' ∧ t'.validators = t.validators := by
  unfold Store.refreshCliff at h
  split_ifs at h
  · simp only [bind_eq_ok, setCliffValidator_eq_ok] at h
    obtain ⟨v, -, key, -, rfl⟩ := h
    exact ⟨m.ranks _ _ _ _ hInv, rfl⟩
  · cases h
    exact ⟨hInv, rfl⟩

theorem kick (m : Settling Inv) {cliff : Option Address} (hkeyed : t.Keyed)
    (h : t.kick cliff = .ok t') (hInv : Inv t) : Inv t' := by
  rcases kick_eq_ok.mp h with ⟨-, rfl⟩ | ⟨addr, v, v', -, hv, hunbond⟩
  · exact hInv
  · exact m.unbond hkeyed (hkeyed.stored hv) hunbond hInv

theorem settle (m : Settling Inv) {new : Validator} (hkeyed : t.Keyed)
    (hstored : t.getValidator new.owner = some new)
    (hcount : new.Enters → t.visited.count new.owner ≤ 1) (h : t.settle new = .ok t') (hInv : Inv t)
    : Inv t' := by
  simp only [Store.settle, bind_eq_ok] at h
  obtain ⟨t₁, hfold, t₂, hrefresh, hkick⟩ := h
  obtain ⟨hkeyed₁, hInv₁⟩ := m.foldlM_enter hkeyed (fun hnew => ⟨hcount hnew, fun _ => hstored⟩)
    hfold hInv
  obtain ⟨hInv₂, hvalidators⟩ := m.refreshCliff hrefresh hInv₁
  refine m.kick ?_ hkick hInv₂
  intro a v hv
  rw [getValidator, hvalidators] at hv
  exact hkeyed₁ a v hv

theorem setValidator_restamp (m : Settling Inv) (hkeyed : s.Keyed) (height counter : ℤ)
    (hInv : Inv (s.setValidator v)) : Inv (s.setValidator (v.stamped height counter)) := by
  have hstamped := m.restamp height counter (hkeyed.setValidator v) (getValidator_setValidator_self _ _)
    hInv
  have hsame : (s.setValidator v).setValidator (v.stamped height counter) =
      s.setValidator (v.stamped height counter) := by
    simp only [setValidator, Validator.stamped, KVStore.insert_insert_self]
  rwa [hsame] at hstamped

theorem rerank (m : Settling Inv) {ctx : Ctx} {s₁ : Store} {w v₁ : Validator} {key : Bytes}
    (hkeyed : s.Keyed) (hw : s.getValidator v.owner = some w)
    (h : s.rerank ctx v = .ok (s₁, v₁, key)) (hInv : Inv (s.setValidator v)) :
    Inv (s₁.setValidator v₁) := by
  obtain ⟨oldKey, -, -, hcase⟩ := rerank_cases hw h
  rcases hcase with ⟨-, -, s₀, v₀, hunbond, rfl, rfl⟩ | ⟨-, -, rfl, rfl⟩ | ⟨-, rfl, rfl⟩
  · obtain ⟨hnot, pool, hstatus, rfl⟩ := unbondValidator_eq_ok.mp hunbond
    have howner : v₀.owner = v.owner := by rw [(Validator.updateStatus_eq_ok hstatus).1]
    -- the record `v` could have been written before it is unbonded
    have hwritten : (s.setValidator v).unbondedWith v₀ pool = s.unbondedWith v₀ pool := by
      simp only [unbondedWith, setValidator, howner, KVStore.insert_insert_self]
    have hInv₀ : Inv (s.unbondedWith v₀ pool) := by
      rw [← hwritten]
      exact m.unbond (hkeyed.setValidator v) (getValidator_setValidator_self _ _)
        (unbondValidator_eq_ok.mpr ⟨hnot, pool, hstatus, rfl⟩) hInv
    have hkeyed₀ : (s.unbondedWith v₀ pool).Keyed := hkeyed.insert v₀
    have hself : (s.unbondedWith v₀ pool).getValidator v₀.owner = some v₀ := by simp
    exact m.ranks _ _ _ _ (m.restamp w.bondHeight w.bondIntraTxCounter hkeyed₀ hself hInv₀)
  · exact m.ranks _ s.intraTxCounter s.validatorCliff s.validatorPowerCliff
      (m.setValidator_restamp hkeyed _ _ hInv)
  · exact m.ranks _ _ s.validatorCliff s.validatorPowerCliff (m.setValidator_restamp hkeyed _ _ hInv)

theorem updateValidator (m : Settling Inv)
    (hqueue : ∀ {t : Store} (tendermintUpdates), Inv t → Inv { t with tendermintUpdates })
    {ctx : Ctx} {s' : Store} {w v' : Validator} (hmax : 0 < s.params.maxValidators.val)
    (hkeyed : s.Keyed) (hw : s.getValidator v.owner = some w) (hsettles : s.Settles ctx v)
    (hInv : Inv (s.setValidator v)) (h : s.updateValidator ctx v = .ok (s', v')) : Inv s' := by
  obtain ⟨s₁, v₁, key, hrerank, hcase⟩ := updateValidator_settle hmax hkeyed hw hsettles h
  have hInv₁ := m.rerank hkeyed hw hrerank hInv
  rcases hcase with ⟨-, rfl⟩ | ⟨-, -, rfl⟩ | ⟨-, -, hsettle⟩
  · exact hqueue _ hInv₁
  · exact hInv₁
  · have hkeyed₁ := (rerank_touches hkeyed hw hrerank).1.keyed
    exact m.settle (hkeyed₁.setValidator v₁) (getValidator_setValidator_self _ _)
      (hsettles.rerank hw hrerank).2 hsettle hInv₁

end Settling

end Tepleton.Stake
