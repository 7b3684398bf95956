import Tepleton.Stake.Keeper.Update

/-!
# What an update leaves alone

Updating a validator may bond and unbond others.  Whatever it does, the other records keep
everything but their pool shares, the updated record keeps everything but its pool shares and its
place in line, and nothing outside the validator indexes, the pool and the queued updates changes.
This needs no condition on the state beyond every record being stored under its owner.
-/

namespace Tepleton.Stake

open Lib

namespace Store

/-- From `s` to `s'` only the record of `owner` and pool shares of other records have changed,
besides what `updateFrame` leaves out. -/
structure Touches (owner : Address) (s s' : Store) : Prop where
  keyed : s'.Keyed
  frame : s'.updateFrame = s.updateFrame
  others : ∀ a, a ≠ owner →
    (s'.getValidator a).map Validator.core = (s.getValidator a).map Validator.core

namespace Touches

variable {owner : Address} {s s' s'' : Store}

theorem refl (hkeyed : s.Keyed) : Touches owner s s := ⟨hkeyed, rfl, fun _ _ => rfl⟩

theorem trans (h : Touches owner s s') (h' : Touches owner s' s'') : Touches owner s s'' :=
  ⟨h'.keyed, h'.frame.trans h.frame, fun a ha => (h'.others a ha).trans (h.others a ha)⟩

theorem params (h : Touches owner s s') : s'.params = s.params := by
  have hparams := congrArg Store.params h.frame
  exact hparams

theorem of_insert {w : Validator} (hkeyed : s.Keyed)
    (hinsert : s'.validators = s.validators.insert w.owner w)
    (hframe : s'.updateFrame = s.updateFrame)
    (hw : w.owner = owner ∨ (s.getValidator w.owner).map Validator.core = some w.core) :
    Touches owner s s' := by
  refine ⟨?_, hframe, ?_⟩
  · intro a v hv
    rw [getValidator, hinsert] at hv
    exact hkeyed.insert w a v hv
  · intro a ha
    rw [getValidator, hinsert, KVStore.getElem?_insert]
    split_ifs with hwa
    · rcases hw with hw | hw
      · exact absurd (hwa.symm.trans hw) ha
      · rw [← hwa, hw]
        rfl
    · rfl

theorem of_eq (hkeyed : s.Keyed) (hvalidators : s'.validators = s.validators)
    (hframe : s'.updateFrame = s.updateFrame) : Touches owner s s' := by
  refine ⟨?_, hframe, ?_⟩
  · intro a v hv
    rw [getValidator, hvalidators] at hv
    exact hkeyed a v hv
  · intro a _
    rw [getValidator, hvalidators]
    rfl

theorem bondValidator {v v' : Validator} (hkeyed : s.Keyed)
    (hv : v.owner = owner ∨ s.getValidator v.owner = some v)
    (h : s.bondValidator v = .ok (s', v')) : Touches owner s s' := by
  obtain ⟨-, pool, hupdate, rfl⟩ := bondValidator_eq_ok.mp h
  have hv' := (Validator.updateStatus_eq_ok hupdate).1
  refine of_insert (w := v') hkeyed rfl rfl ?_
  rw [hv']
  exact hv.imp_right fun hv => by rw [hv]; rfl

theorem unbondValidator {v v' : Validator} (hkeyed : s.Keyed)
    (hv : v.owner = owner ∨ s.getValidator v.owner = some v)
    (h : s.unbondValidator v = .ok (s', v')) : Touches owner s s' := by
  obtain ⟨-, pool, hupdate, rfl⟩ := unbondValidator_eq_ok.mp h
  have hv' := (Validator.updateStatus_eq_ok hupdate).1
  refine of_insert (w := v') hkeyed rfl rfl ?_
  rw [hv']
  exact hv.imp_right fun hv => by rw [hv]; rfl

end Touches

end Store

theorem BondLoop.loop_invariant (Inv : BondLoop → Prop) {max : Fin (2 ^ 16)} {new : Validator}
    (hnext : ∀ {l a l'}, Inv l → l.next new a = .ok l' → Inv l')
    (hfinish : ∀ {l l'}, Inv l → l.finish max = .ok l' → Inv l')
    {owners : List Address} {l l' : BondLoop} (hl : Inv l)
    (h : loop max new owners l = .ok l') : Inv l' := by
  induction owners generalizing l with
  | nil => exact hfinish hl h
  | cons a owners ih =>
    rw [loop] at h
    split_ifs at h with hfull
    · exact hfinish hl h
    · obtain ⟨l₁, hl₁, h⟩ := bind_eq_ok.mp h
      exact ih (hnext hl hl₁) h

theorem BondLoop.finish_eq_ok {max : Fin (2 ^ 16)} {l l' : BondLoop} (h : l.finish max = .ok l') :
    ∃ power cliff, l' = { l with store := { l.store with
      validatorPowerCliff := power, validatorCliff := cliff } } := by
  unfold finish at h
  split_ifs at h with hfull
  · cases hv : l.validator with
    | none =>
      rw [hv] at h
      cases h
    | some v =>
      simp only [hv, bind_eq_ok, pure_eq_ok, Store.setCliffValidator_eq_ok] at h
      obtain ⟨s, ⟨key, -, rfl⟩, rfl⟩ := h
      exact ⟨some key, some v.owner, rfl⟩
  · cases h
    exact ⟨_, _, rfl⟩

namespace Store

variable {s s' : Store} {new : Validator} {updated : Option Validator} {ctx : Ctx}
  {w v v' : Validator}

theorem updateBondedValidators_touches (hkeyed : s.Keyed)
    (h : s.updateBondedValidators new = .ok (s', updated)) :
    Touches new.owner s s' ∧ ∀ u ∈ updated, u.core = new.core := by
  simp only [updateBondedValidators, bind_eq_ok, pure_eq_ok, Prod.mk.injEq] at h
  obtain ⟨l, hloop, s'', hkick, rfl, rfl⟩ := h
  have hl : Touches new.owner s l.store ∧ ∀ u ∈ l.updatedVal, u.core = new.core := by
    refine BondLoop.loop_invariant
      (fun l => Touches new.owner s l.store ∧ ∀ u ∈ l.updatedVal, u.core = new.core)
      ?_ ?_ ⟨.refl hkeyed, by simp⟩ hloop
    · rintro l a l' ⟨htouch, hcopy⟩ hnext
      obtain ⟨w, hw, ⟨-, t, w', hbond, rfl⟩ | ⟨-, -, rfl⟩⟩ := BondLoop.next_eq_ok hnext
      · have hw' : w'.core = w.core := by
          obtain ⟨-, pool, hupdate, -⟩ := bondValidator_eq_ok.mp hbond
          rw [(Validator.updateStatus_eq_ok hupdate).1]
          rfl
        rcases current_eq_ok.mp hw with ⟨rfl, rfl⟩ | ⟨ha, hstored⟩
        · exact ⟨htouch.trans (.bondValidator htouch.keyed (.inl rfl) hbond), by simp [hw']⟩
        · have howner := htouch.keyed a w hstored
          refine ⟨htouch.trans (.bondValidator htouch.keyed (.inr ?_) hbond), ?_⟩
          · rwa [howner]
          · simpa [ha] using hcopy
      · exact ⟨htouch, hcopy⟩
    · rintro l l' ⟨htouch, hcopy⟩ hfinish
      obtain ⟨power, cliff, rfl⟩ := BondLoop.finish_eq_ok hfinish
      exact ⟨htouch.trans (.of_eq htouch.keyed rfl rfl), hcopy⟩
  refine ⟨hl.1.trans ?_, hl.2⟩
  rcases kick_eq_ok.mp hkick with ⟨-, rfl⟩ | ⟨addr, v, v', -, hv, hunbond⟩
  · exact .refl hl.1.keyed
  · refine .unbondValidator hl.1.keyed (.inr ?_) hunbond
    rwa [hl.1.keyed addr v hv]

theorem updateBondedValidators_walkFrame (h : s.updateBondedValidators new = .ok (s', updated)) :
    s'.walkFrame = s.walkFrame := by
  simp only [updateBondedValidators, bind_eq_ok, pure_eq_ok, Prod.mk.injEq] at h
  obtain ⟨l, hloop, s'', hkick, rfl, rfl⟩ := h
  have hl : l.store.walkFrame = s.walkFrame := by
    refine BondLoop.loop_invariant (fun l => l.store.walkFrame = s.walkFrame) ?_ ?_ rfl hloop
    · intro l a l' hl hnext
      obtain ⟨w, -, ⟨-, t, w', hbond, rfl⟩ | ⟨-, -, rfl⟩⟩ := BondLoop.next_eq_ok hnext
      · obtain ⟨-, pool, -, rfl⟩ := bondValidator_eq_ok.mp hbond
        exact hl
      · exact hl
    · intro l l' hl hfinish
      obtain ⟨power, cliff, rfl⟩ := BondLoop.finish_eq_ok hfinish
      exact hl
  rcases kick_eq_ok.mp hkick with ⟨-, rfl⟩ | ⟨addr, v, v', -, -, hunbond⟩
  · exact hl
  · obtain ⟨-, pool, -, rfl⟩ := unbondValidator_eq_ok.mp hunbond
    exact hl

/-- The walk leaves the cliff where it is or, with all places taken, sets it to the last validator
visited. -/
theorem updateBondedValidators_cliff (hmax : 0 < s.params.maxValidators.val) (hkeyed : s.Keyed)
    (h : s.updateBondedValidators new = .ok (s', updated)) :
    s'.validatorCliff = s.validatorCliff ∨ (s.visited.length = s.params.maxValidators ∧
      ∃ a, s.visited.getLast? = some a ∧ s'.validatorCliff = some a) := by
  simp only [updateBondedValidators, BondLoop.loop_eq hmax, Nat.sub_zero, bind_eq_ok, pure_eq_ok,
    Prod.mk.injEq] at h
  obtain ⟨l', ⟨l, hfold, hfinish⟩, s'', hkick, rfl, rfl⟩ := h
  obtain ⟨henter, hl, hcount, -, hlast⟩ := BondLoop.foldlM_enter_of_next
    (l := ⟨s, 0, none, false, none⟩) ⟨rfl, by simp, hkeyed⟩ hfold
  have hkept : l.store.validatorCliff = s.validatorCliff := by
    have hframe := congrArg validatorCliff (foldlM_enter_bondFrame henter)
    exact hframe
  have hkicked : s''.validatorCliff = l'.store.validatorCliff := by
    rcases kick_eq_ok.mp hkick with ⟨-, rfl⟩ | ⟨addr, v, v', -, -, hunbond⟩
    · rfl
    · obtain ⟨-, pool, -, rfl⟩ := unbondValidator_eq_ok.mp hunbond
      rfl
  rw [hkicked]
  have hlength : l.bondedValidatorsCount = s.visited.length := hcount.trans (Nat.zero_add _)
  unfold BondLoop.finish at hfinish
  split_ifs at hfinish with hfull
  · refine .inr ⟨hlength.symm.trans hfull, ?_⟩
    obtain ⟨a, ha⟩ : ∃ a, s.visited.getLast? = some a := by
      cases hnil : s.visited.getLast? with
      | none =>
        rw [List.getLast?_eq_none_iff] at hnil
        rw [hnil, List.length_nil] at hlength
        omega
      | some a => exact ⟨a, rfl⟩
    obtain ⟨w, hw, hstored⟩ := hlast a ha
    simp only [hw, bind_eq_ok, pure_eq_ok, setCliffValidator_eq_ok] at hfinish
    obtain ⟨t, ⟨key, -, rfl⟩, rfl⟩ := hfinish
    exact ⟨a, ha, congrArg some (hl.keyed.setValidator _ a w hstored)⟩
  · cases hfinish
    exact .inl hkept

theorem rerank_touches {key : Bytes} (hkeyed : s.Keyed) (hold : s.getValidator v.owner = some w)
    (h : s.rerank ctx v = .ok (s', v', key)) : Touches v.owner s s' ∧ v'.identity = v.identity := by
  obtain ⟨oldKey, -, -, hcase⟩ := rerank_cases hold h
  rcases hcase with ⟨-, -, s₀, v₀, hunbond, rfl, rfl⟩ | ⟨-, -, rfl, rfl⟩ | ⟨-, rfl, rfl⟩
  · have htouch : Touches v.owner s s₀ := .unbondValidator hkeyed (.inl rfl) hunbond
    refine ⟨htouch.trans (.of_eq htouch.keyed rfl rfl), ?_⟩
    obtain ⟨-, pool, hupdate, -⟩ := unbondValidator_eq_ok.mp hunbond
    rw [(Validator.updateStatus_eq_ok hupdate).1]
    rfl
  · exact ⟨.of_eq hkeyed rfl rfl, rfl⟩
  · exact ⟨.of_eq hkeyed rfl rfl, rfl⟩

/-- What holds after every update of a stored validator. -/
structure Updated (v : Validator) (s s' : Store) (v' : Validator) : Prop where
  touches : Touches v.owner s s'
  stored : s'.getValidator v.owner = some v'
  identity : v'.identity = v.identity

theorem Updated.owner (h : Updated v s s' v') : v'.owner = v.owner :=
  Validator.owner_eq_of_identity h.identity

theorem Updated.self (h : Updated v s s' v') : s'.getValidator v'.owner = some v' := by
  rw [h.owner, h.stored]

theorem Updated.before {u : Validator} (h : Updated v s s' v') {a : Address} (ha : a ≠ v.owner)
    (hu : s'.getValidator a = some u) : ∃ u₀, s.getValidator a = some u₀ ∧ u.core = u₀.core := by
  have hcore := h.touches.others a ha
  rw [hu, Option.map_some, eq_comm, Option.map_eq_some_iff] at hcore
  obtain ⟨u₀, hu₀, hcore⟩ := hcore
  exact ⟨u₀, hu₀, hcore.symm⟩

theorem Updated.after {u : Validator} (h : Updated v s s' v') {a : Address} (ha : a ≠ v.owner)
    (hu : s.getValidator a = some u) : ∃ u', s'.getValidator a = some u' ∧ u'.core = u.core := by
  have hcore := h.touches.others a ha
  rwa [hu, Option.map_some, Option.map_eq_some_iff] at hcore

theorem updateValidator_updated (hkeyed : s.Keyed) (hold : s.getValidator v.owner = some w)
    (h : s.updateValidator ctx v = .ok (s', v')) : Updated v s s' v' := by
  obtain ⟨s₁, v₁, key, hrerank, hcase⟩ := updateValidator_cases h
  obtain ⟨htouch, hidentity⟩ := rerank_touches hkeyed hold hrerank
  have howner : v₁.owner = v.owner := Validator.owner_eq_of_identity hidentity
  -- the deferred write of the copy ends all three cases
  have hwrite : ∀ {t : Store} {u : Validator}, Touches v.owner s t → u.core = v₁.core →
      Updated v s (t.setValidator u) u := by
    intro t u ht hu
    have hu' : u.identity = v.identity := (Validator.identity_eq_of_core hu).trans hidentity
    have hu'' : u.owner = v.owner := Validator.owner_eq_of_identity hu'
    refine ⟨ht.trans (.of_insert ht.keyed rfl rfl (.inl hu'')), ?_, hu'⟩
    rw [← hu'', getValidator_setValidator_self]
  rcases hcase with ⟨-, rfl, rfl⟩ | ⟨-, -, rfl, rfl⟩ | ⟨-, -, s₂, updated, hwalk, rfl, rfl⟩
  · exact hwrite (htouch.trans (.of_eq htouch.keyed rfl rfl)) rfl
  · exact hwrite htouch rfl
  · obtain ⟨htouch', hcopy⟩ := updateBondedValidators_touches htouch.keyed hwalk
    rw [howner] at htouch'
    refine hwrite (htouch.trans htouch') ?_
    cases updated with
    | none => rfl
    | some u => exact hcopy u rfl

theorem updateValidator_rerank (hkeyed : s.Keyed) (hold : s.getValidator v.owner = some w)
    (h : s.updateValidator ctx v = .ok (s', v')) :
    ∃ s₁ v₁ key, s.rerank ctx v = .ok (s₁, v₁, key) ∧ v'.core = v₁.core ∧
      s'.validatorsByPower = s₁.validatorsByPower ∧ s'.intraTxCounter = s₁.intraTxCounter := by
  obtain ⟨s₁, v₁, key, hrerank, hcase⟩ := updateValidator_cases h
  refine ⟨s₁, v₁, key, hrerank, ?_⟩
  rcases hcase with ⟨-, rfl, rfl⟩ | ⟨-, -, rfl, rfl⟩ | ⟨-, -, s₂, updated, hwalk, rfl, rfl⟩
  · exact ⟨rfl, rfl, rfl⟩
  · exact ⟨rfl, rfl, rfl⟩
  · have htouch := (rerank_touches hkeyed hold hrerank).1
    have hcopy := (updateBondedValidators_touches htouch.keyed hwalk).2
    have hframe := updateBondedValidators_walkFrame hwalk
    have hindex := congrArg validatorsByPower hframe
    have hcounter := congrArg intraTxCounter hframe
    refine ⟨?_, hindex, hcounter⟩
    cases updated with
    | none => rfl
    | some u => exact hcopy u rfl

/-- Where the cliff is after an update: where it was, unless a bonded validator was revoked; or
nowhere; or at the last of the validators that take all the places. -/
theorem updateValidator_cliff (hmax : 0 < s.params.maxValidators.val) (hkeyed : s.Keyed)
    (hold : s.getValidator v.owner = some w) (h : s.updateValidator ctx v = .ok (s', v')) :
    (s'.validatorCliff = s.validatorCliff ∧ ¬ (v.revoked = true ∧ w.status = .bonded)) ∨
      s'.validatorCliff = none ∨ (s'.visited.length = s.params.maxValidators ∧
        ∃ a, s'.visited.getLast? = some a ∧ s'.validatorCliff = some a) := by
  obtain ⟨s₁, v₁, key, hrerank, hcase⟩ := updateValidator_cases h
  have htouch := (rerank_touches hkeyed hold hrerank).1
  have hparams : s₁.params = s.params := htouch.params
  have hcliff : (s₁.validatorCliff = s.validatorCliff ∧ ¬ (v.revoked = true ∧ w.status = .bonded)) ∨
      s₁.validatorCliff = none := by
    obtain ⟨oldKey, -, -, hcase⟩ := rerank_cases hold hrerank
    rcases hcase with ⟨-, -, s₀, v₀, -, -, rfl⟩ | ⟨hrevoked, -, -, rfl⟩ | ⟨hstatus, -, rfl⟩
    · exact .inr rfl
    · exact .inl ⟨rfl, by simp [hrevoked]⟩
    · exact .inl ⟨rfl, by simp [hstatus]⟩
  rcases hcase with ⟨-, rfl, rfl⟩ | ⟨-, -, rfl, rfl⟩ | ⟨-, -, s₂, updated, hwalk, rfl, rfl⟩
  · exact hcliff.imp_right .inl
  · exact hcliff.imp_right .inl
  · have hframe := updateBondedValidators_walkFrame hwalk
    have hvisited : s₂.visited = s₁.visited := by
      have hfield := congrArg visited hframe
      exact hfield
    rcases updateBondedValidators_cliff (by rwa [hparams]) htouch.keyed hwalk with
      hkept | ⟨hfull, a, hlast, hset⟩
    · rw [← hkept] at hcliff
      exact hcliff.imp_right .inl
    · rw [hparams] at hfull
      exact .inr (.inr ⟨by rw [← hfull, ← hvisited]; rfl, a, by rw [← hlast, ← hvisited]; rfl, hset⟩)

theorem rerank_zero {s₁ : Store} {v₁ : Validator} {key : Bytes}
    (hw : s.getValidator v.owner = some w) (hamount : v.poolShares.amount = 0)
    (h : s.rerank ctx v = .ok (s₁, v₁, key)) : v₁.poolShares.amount = 0 := by
  obtain ⟨oldKey, -, -, hcase⟩ := rerank_cases hw h
  rcases hcase with ⟨-, -, s₀, v₀, hunbond, rfl, -⟩ | ⟨-, -, rfl, -⟩ | ⟨-, rfl, -⟩
  · obtain ⟨-, pool, hstatus, -⟩ := unbondValidator_eq_ok.mp hunbond
    have hzero := Validator.updateStatus_zero hamount hstatus
    exact hzero
  · exact hamount
  · exact hamount

theorem updateBondedValidators_zero (hamount : new.poolShares.amount = 0)
    (h : s.updateBondedValidators new = .ok (s', updated)) :
    ∀ u ∈ updated, u.poolShares.amount = 0 := by
  simp only [updateBondedValidators, bind_eq_ok, pure_eq_ok, Prod.mk.injEq] at h
  obtain ⟨l, hloop, s'', -, -, rfl⟩ := h
  refine BondLoop.loop_invariant (fun l => ∀ u ∈ l.updatedVal, u.poolShares.amount = 0) ?_ ?_
    (by simp) hloop
  · intro l a l' hl hnext
    obtain ⟨w, hw, ⟨-, t, w', hbond, rfl⟩ | ⟨-, -, rfl⟩⟩ := BondLoop.next_eq_ok hnext
    · dsimp only
      split_ifs with ha
      · obtain ⟨-, pool, hstatus, -⟩ := bondValidator_eq_ok.mp hbond
        rcases current_eq_ok.mp hw with ⟨-, rfl⟩ | ⟨hne, -⟩
        · simpa using Validator.updateStatus_zero hamount hstatus
        · exact absurd ha hne
      · exact hl
    · exact hl
  · intro l l' hl hfinish
    obtain ⟨power, cliff, rfl⟩ := BondLoop.finish_eq_ok hfinish
    exact hl

theorem updateValidator_zero (hw : s.getValidator v.owner = some w)
    (hamount : v.poolShares.amount = 0) (h : s.updateValidator ctx v = .ok (s', v')) :
    v'.poolShares.amount = 0 := by
  obtain ⟨s₁, v₁, key, hrerank, hcases⟩ := updateValidator_cases h
  have hzero := rerank_zero hw hamount hrerank
  rcases hcases with ⟨-, rfl, -⟩ | ⟨-, -, rfl, -⟩ | ⟨-, -, s₂, updated, hwalk, rfl, -⟩
  · exact hzero
  · exact hzero
  · cases hupdated : updated with
    | none => exact hzero
    | some u => exact updateBondedValidators_zero hzero hwalk u hupdated

end Store

end Tepleton.Stake
