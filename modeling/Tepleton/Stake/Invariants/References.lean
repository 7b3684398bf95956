import Tepleton.Stake.Invariants.PowerIndex
import Tepleton.Stake.Invariants.PubKeys

/-!
# No index entry without a record

An index entry is dangling when the validator it names has no record.  Records disappear in one
place only, at the end of `unbond`, when a validator has no delegator shares left.  `RemoveValidator`
clears the entries under the bonded, by-power and public-key indexes, the second one under the key
it computes, and forgets the cliff: if the update before it leaves the cliff at the validator, or has
just set it there, the cliff names a validator without a record, and the next kick panics.

`Vacates` is what must hold of a validator's last unbonding for that not to happen.
-/

namespace Tepleton.Stake

open Lib

/-! ## Stores whose indexes name known validators -/

/-- Exactly the `known` addresses have records, and the bonded index, the by-power index and the
cliff name no others. -/
structure Names (known : Address → Prop) (s : Store) : Prop where
  keyed : s.Keyed
  records : ∀ a, (∃ v, s.getValidator a = some v) ↔ known a
  bonded : ∀ k a : Address, s.validatorsBonded[k]? = some a → a = k ∧ known a
  power : ∀ (key : Bytes) a, s.validatorsByPower[key]? = some a → known a
  cliff : ∀ a, s.validatorCliff = some a → known a

/-- The same for the variables of the loop in `updateBondedValidators`. -/
structure LoopNames (known : Address → Prop) (l : BondLoop) : Prop where
  store : Names known l.store
  validator : ∀ w ∈ l.validator, known w.owner
  updatedVal : ∀ u ∈ l.updatedVal, known u.owner

namespace Names

variable {known : Address → Prop} {s s' : Store} {v v' : Validator}

theorem write (hs : Names known s) (hv : known v.owner)
    (hvalidators : s'.validators = s.validators.insert v.owner v)
    (hbonded : ∀ k a : Address, s'.validatorsBonded[k]? = some a → a = k ∧ known a)
    (hpower : s'.validatorsByPower = s.validatorsByPower)
    (hcliff : s'.validatorCliff = s.validatorCliff) : Names known s' := by
  refine ⟨?_, ?_, hbonded, ?_, ?_⟩
  · intro a w hw
    rw [Store.getValidator, hvalidators] at hw
    exact hs.keyed.insert v a w hw
  · intro a
    rw [← hs.records a, Store.getValidator, hvalidators, KVStore.getElem?_insert]
    split_ifs with ha
    · simp only [Option.some.injEq, exists_eq', true_iff]
      exact (hs.records a).mpr (ha ▸ hv)
    · rfl
  · rw [hpower]
    exact hs.power
  · rw [hcliff]
    exact hs.cliff

theorem setValidator (hs : Names known s) (hv : known v.owner) : Names known (s.setValidator v) :=
  hs.write hv rfl hs.bonded rfl rfl

theorem bondValidator (hs : Names known s) (hv : known v.owner)
    (h : s.bondValidator v = .ok (s', v')) : Names known s' ∧ v'.owner = v.owner := by
  obtain ⟨-, pool, hstatus, rfl⟩ := Store.bondValidator_eq_ok.mp h
  have howner : v'.owner = v.owner := by rw [(Validator.updateStatus_eq_ok hstatus).1]
  rw [← howner] at hv
  refine ⟨hs.write hv rfl ?_ rfl rfl, howner⟩
  intro k a ha
  have ha' : (s.validatorsBonded.insert v'.owner v'.owner)[k]? = some a := ha
  rw [KVStore.getElem?_insert] at ha'
  split_ifs at ha' with hk
  · obtain rfl := Option.some.inj ha'
    exact ⟨hk, hv⟩
  · exact hs.bonded k a ha'

theorem unbondValidator (hs : Names known s) (hv : known v.owner)
    (h : s.unbondValidator v = .ok (s', v')) : Names known s' ∧ v'.owner = v.owner := by
  obtain ⟨-, pool, hstatus, rfl⟩ := Store.unbondValidator_eq_ok.mp h
  have howner : v'.owner = v.owner := by rw [(Validator.updateStatus_eq_ok hstatus).1]
  rw [← howner] at hv
  refine ⟨hs.write hv rfl ?_ rfl rfl, howner⟩
  intro k a ha
  have ha' : (s.validatorsBonded.erase v'.owner)[k]? = some a := ha
  rw [KVStore.getElem?_erase] at ha'
  split_ifs at ha'
  exact hs.bonded k a ha'

theorem reindexed (hs : Names known s) {a : Address} (ha : known a) {oldKey key : Bytes}
    (hvalidators : s'.validators = s.validators) (hbonded : s'.validatorsBonded = s.validatorsBonded)
    (hindex : s'.validatorsByPower = s.reindexed oldKey key a)
    (hcliff : s'.validatorCliff = s.validatorCliff ∨ s'.validatorCliff = none) :
    Names known s' := by
  refine ⟨?_, ?_, ?_, ?_, ?_⟩
  · intro b w hw
    rw [Store.getValidator, hvalidators] at hw
    exact hs.keyed b w hw
  · intro b
    rw [Store.getValidator, hvalidators]
    exact hs.records b
  · rw [hbonded]
    exact hs.bonded
  · intro k b hk
    rw [hindex, Store.reindexed, KVStore.getElem?_insert, KVStore.getElem?_erase] at hk
    split_ifs at hk
    · exact Option.some.inj hk ▸ ha
    · exact hs.power k b hk
  · intro b hb
    rcases hcliff with hcliff | hcliff
    · exact hs.cliff b (hcliff ▸ hb)
    · rw [hcliff] at hb
      cases hb

theorem rerank {ctx : Ctx} {key : Bytes} (hs : Names known s) (hv : known v.owner)
    (h : s.rerank ctx v = .ok (s', v', key)) : Names known s' ∧ v'.owner = v.owner := by
  obtain ⟨w, hw⟩ := (hs.records _).mpr hv
  obtain ⟨oldKey, -, -, hcase⟩ := Store.rerank_cases hw h
  rcases hcase with ⟨-, -, s₀, v₀, hunbond, rfl, rfl⟩ | ⟨-, -, rfl, rfl⟩ | ⟨-, rfl, rfl⟩
  · obtain ⟨hs₀, howner⟩ := hs.unbondValidator hv hunbond
    have hindex : s.reindexed oldKey key v.owner = s₀.reindexed oldKey key v.owner := by
      obtain ⟨-, pool, -, rfl⟩ := Store.unbondValidator_eq_ok.mp hunbond
      rfl
    exact ⟨hs₀.reindexed hv rfl rfl hindex (.inr rfl), howner⟩
  · exact ⟨hs.reindexed hv rfl rfl rfl (.inl rfl), rfl⟩
  · exact ⟨hs.reindexed hv rfl rfl rfl (.inl rfl), rfl⟩

end Names

namespace LoopNames

variable {known : Address → Prop} {l l' : BondLoop}

theorem next {new : Validator} {a : Address} (hl : LoopNames known l) (hnew : known new.owner)
    (h : l.next new a = .ok l') : LoopNames known l' := by
  obtain ⟨hs, -, hcopy⟩ := hl
  obtain ⟨w, hw, hcase⟩ := BondLoop.next_eq_ok h
  have hknown : known w.owner := by
    rcases Store.current_eq_ok.mp hw with ⟨-, rfl⟩ | ⟨-, hstored⟩
    · exact hnew
    · exact (hs.records _).mp ⟨w, hs.keyed.stored hstored⟩
  rcases hcase with ⟨-, s, w', hbond, rfl⟩ | ⟨-, -, rfl⟩
  · obtain ⟨hs', howner⟩ := hs.bondValidator hknown hbond
    rw [← howner] at hknown
    refine ⟨hs', by simpa using hknown, ?_⟩
    dsimp only
    split_ifs
    · simpa using hknown
    · exact hcopy
  · exact ⟨hs, by simpa using hknown, hcopy⟩

theorem finish {max : Fin (2 ^ 16)} (hl : LoopNames known l) (h : l.finish max = .ok l') :
    LoopNames known l' := by
  obtain ⟨hs, hlast, hcopy⟩ := hl
  unfold BondLoop.finish at h
  split_ifs at h with hfull
  · cases hv : l.validator with
    | none =>
      rw [hv] at h
      cases h
    | some v =>
      simp only [hv, bind_eq_ok, pure_eq_ok, Store.setCliffValidator_eq_ok] at h
      obtain ⟨s, ⟨key, -, rfl⟩, rfl⟩ := h
      refine ⟨⟨hs.keyed, hs.records, hs.bonded, hs.power, ?_⟩, by simpa [hv] using hlast, hcopy⟩
      intro a ha
      exact Option.some.inj ha ▸ hlast v hv
  · cases h
    exact ⟨hs, hlast, hcopy⟩

theorem loop {max : Fin (2 ^ 16)} {new : Validator} {owners : List Address}
    (hl : LoopNames known l) (hnew : known new.owner)
    (h : BondLoop.loop max new owners l = .ok l') : LoopNames known l' :=
  BondLoop.loop_invariant (LoopNames known) (fun hl hnext => hl.next hnew hnext) finish hl h

end LoopNames

namespace Names

variable {known : Address → Prop} {s s' : Store} {v v' : Validator}

theorem updateBondedValidators {new : Validator} {updated : Option Validator} (hs : Names known s)
    (hnew : known new.owner) (h : s.updateBondedValidators new = .ok (s', updated)) :
    Names known s' ∧ ∀ u ∈ updated, known u.owner := by
  simp only [Store.updateBondedValidators, bind_eq_ok, pure_eq_ok, Prod.mk.injEq] at h
  obtain ⟨l, hloop, s'', hkick, rfl, rfl⟩ := h
  have hstart : LoopNames known ⟨s, 0, none, false, none⟩ := ⟨hs, by simp, by simp⟩
  obtain ⟨hl, -, hcopy⟩ := hstart.loop hnew hloop
  refine ⟨?_, hcopy⟩
  rcases Store.kick_eq_ok.mp hkick with ⟨-, rfl⟩ | ⟨addr, v, v', -, hv, hunbond⟩
  · exact hl
  · exact (hl.unbondValidator ((hl.records _).mp ⟨v, hl.keyed.stored hv⟩) hunbond).1

theorem updateValidator {ctx : Ctx} (hs : Names known s) (hv : known v.owner)
    (h : s.updateValidator ctx v = .ok (s', v')) : Names known s' := by
  obtain ⟨s₁, v₁, key, hrerank, hcase⟩ := Store.updateValidator_cases h
  obtain ⟨hs₁, howner⟩ := hs.rerank hv hrerank
  rw [← howner] at hv
  rcases hcase with ⟨-, rfl, rfl⟩ | ⟨-, -, rfl, rfl⟩ | ⟨-, -, s₂, updated, hwalk, rfl, rfl⟩
  · exact hs₁.write hv rfl hs₁.bonded rfl rfl
  · exact hs₁.setValidator hv
  · obtain ⟨hs₂, hcopy⟩ := hs₁.updateBondedValidators hv hwalk
    refine hs₂.setValidator ?_
    cases updated with
    | none => exact hv
    | some u => exact hcopy u rfl

end Names

/-! ## No lookup fails -/

/-- The panic on an index entry without a record. -/
def RecordMissing (fault : Fault) : Prop := ∃ a, fault = .panic (.validatorRecordNotFound a)

section Avoids

variable {known : Address → Prop} {s : Store}

theorem quo_avoids (r r' : ℚ) : Avoids RecordMissing (quo r r') := by
  unfold quo
  split_ifs
  · rintro ⟨a, ha⟩
    cases ha
  · trivial

theorem amountAs_avoids (shares : PoolShares) (pool : Pool) (target : BondStatus) :
    Avoids RecordMissing (shares.amountAs pool target) := by
  unfold PoolShares.amountAs
  split_ifs
  · trivial
  · exact (quo_avoids _ _).bind fun _ _ => avoids_pure _ _

theorem key_avoids (v : Validator) (pool : Pool) :
    Avoids RecordMissing (getValidatorsByPowerIndexKey v pool) := by
  refine .bind (.bind (.bind (amountAs_avoids _ _ _) fun _ _ => avoids_pure _ _) fun _ _ =>
    avoids_pure _ _) fun _ _ => avoids_pure _ _

theorem updateStatus_avoids (v : Validator) (pool : Pool) (status : BondStatus) :
    Avoids RecordMissing (v.updateStatus pool status) := by
  unfold Validator.updateStatus
  split_ifs
  · trivial
  · refine .bind ?_ fun _ _ => .bind ?_ fun _ _ => avoids_pure _ _
    · simp only [Pool.removeShares]
      split_ifs
      · rintro ⟨a, ha⟩
        cases ha
      · trivial
    · refine (quo_avoids _ _).bind fun _ _ => ?_
      dsimp only
      split_ifs
      · rintro ⟨a, ha⟩
        cases ha
      · trivial

theorem bondValidator_avoids (s : Store) (v : Validator) :
    Avoids RecordMissing (s.bondValidator v) := by
  unfold Store.bondValidator
  split_ifs
  · rintro ⟨a, ha⟩
    cases ha
  · exact (updateStatus_avoids _ _ _).bind fun _ _ => avoids_pure _ _

theorem unbondValidator_avoids (s : Store) (v : Validator) :
    Avoids RecordMissing (s.unbondValidator v) := by
  unfold Store.unbondValidator
  split_ifs
  · rintro ⟨a, ha⟩
    cases ha
  · exact (updateStatus_avoids _ _ _).bind fun _ _ => avoids_pure _ _

variable {a : Address} {new : Validator}

theorem getIndexed_avoids (hs : Names known s) (ha : known a) :
    Avoids RecordMissing (s.getIndexed a) := by
  obtain ⟨v, hv⟩ := (hs.records a).mpr ha
  rw [Store.getIndexed_eq_ok.mpr hv]
  trivial

theorem next_avoids {l : BondLoop} (hs : Names known l.store) (ha : known a) : Avoids RecordMissing
    (l.next new a) := by
  refine .bind ?_ fun w _ => ?_
  · unfold Store.current
    split_ifs
    · trivial
    · exact getIndexed_avoids hs ha
  · split
    · exact (bondValidator_avoids _ _).bind fun _ _ => avoids_pure _ _
    · split
      · rintro ⟨b, hb⟩
        cases hb
      · trivial

theorem finish_avoids (max : Fin (2 ^ 16)) (l : BondLoop) : Avoids RecordMissing (l.finish max) := by
  unfold BondLoop.finish
  split_ifs
  · cases l.validator with
    | none =>
      rintro ⟨a, ha⟩
      cases ha
    | some v =>
      exact ((key_avoids _ _).bind fun _ _ => avoids_pure _ _).bind fun _ _ => avoids_pure _ _
  · trivial

theorem loop_avoids {max : Fin (2 ^ 16)} (hnew : known new.owner) {owners : List Address}
    (howners : ∀ a ∈ owners, known a) {l : BondLoop} (hl : LoopNames known l) :
    Avoids RecordMissing (BondLoop.loop max new owners l) := by
  induction owners generalizing l with
  | nil => exact finish_avoids max l
  | cons a owners ih =>
    rw [BondLoop.loop]
    split_ifs
    · exact finish_avoids max l
    · refine (next_avoids hl.store (howners a (by simp))).bind fun l' hnext => ?_
      exact ih (fun b hb => howners b (by simp [hb])) (hl.next hnew hnext)

theorem Names.mem_byPower (hs : Names known s) (ha : a ∈ s.byPower) : known a := by
  obtain ⟨⟨key, b⟩, hentry, rfl⟩ := List.mem_map.mp ha
  exact hs.power key b (KVStore.mem_descending.mp hentry)

theorem updateBondedValidators_avoids (hs : Names known s) (hnew : known new.owner) : Avoids
    RecordMissing (s.updateBondedValidators new) := by
  have hstart : LoopNames known ⟨s, 0, none, false, none⟩ := ⟨hs, by simp, by simp⟩
  refine .bind (loop_avoids hnew (fun a => hs.mem_byPower) hstart) fun l hloop => ?_
  have hl := hstart.loop hnew hloop
  refine .bind ?_ fun _ _ => avoids_pure _ _
  -- the old cliff was read before the walk
  cases hkick : (if l.kickCliffValidator then s.validatorCliff else none) with
  | none => trivial
  | some a =>
    have hcliff : s.validatorCliff = some a := by
      split_ifs at hkick
      exact hkick
    exact (getIndexed_avoids hl.store (hs.cliff a hcliff)).bind fun _ _ =>
      (unbondValidator_avoids _ _).bind fun _ _ => avoids_pure _ _

theorem rerank_avoids {ctx : Ctx} {v : Validator} : Avoids RecordMissing (s.rerank ctx v) := by
  refine .bind ?_ fun _ _ => .bind ?_ fun _ _ => (key_avoids _ _).bind fun _ _ => avoids_pure _ _
  · unfold Store.unbondRevoked
    split_ifs
    · exact (unbondValidator_avoids _ _).bind fun _ _ => avoids_pure _ _
    · trivial
  · unfold Store.unindex
    split
    · trivial
    · exact (key_avoids _ _).bind fun _ _ => avoids_pure _ _

theorem updateValidator_avoids {ctx : Ctx} {v : Validator} (hs : Names known s)
    (hv : known v.owner) : Avoids RecordMissing (s.updateValidator ctx v) := by
  refine rerank_avoids.bind fun ⟨s₁, v₁, key⟩ hrerank => ?_
  obtain ⟨hs₁, howner⟩ := hs.rerank hv hrerank
  dsimp only
  split_ifs
  · trivial
  · trivial
  · exact (updateBondedValidators_avoids hs₁ (howner ▸ hv)).bind fun _ _ => avoids_pure _ _

theorem getValidatorsBonded_avoids (hs : Names known s) :
    Avoids RecordMissing s.getValidatorsBonded := by
  have hgo : ∀ (owners : List Address) (i : ℕ), (∀ a ∈ owners, known a) →
      Avoids RecordMissing (Store.getValidatorsBonded.go s i owners) := by
    intro owners
    induction owners with
    | nil => exact fun _ _ => trivial
    | cons a owners ih =>
      intro i howners
      rw [Store.getValidatorsBonded.go]
      split_ifs
      · rintro ⟨b, hb⟩
        cases hb
      · exact (getIndexed_avoids hs (howners a (by simp))).bind fun _ _ =>
          (ih (i + 1) fun b hb => howners b (by simp [hb])).bind fun _ _ => avoids_pure _ _
  refine hgo _ 0 fun a ha => ?_
  obtain ⟨⟨k, b⟩, hentry, rfl⟩ := List.mem_map.mp ha
  exact (hs.bonded k b (KVStore.mem_toList.mp hentry)).2

theorem getValidatorsByPower_avoids (hs : Names known s) :
    Avoids RecordMissing s.getValidatorsByPower := by
  have hgo : ∀ (owners : List Address) (i : ℕ), (∀ a ∈ owners, known a) →
      Avoids RecordMissing (Store.getValidatorsByPower.go s i owners) := by
    intro owners
    induction owners with
    | nil => exact fun _ _ => trivial
    | cons a owners ih =>
      intro i howners
      have hrest : ∀ b ∈ owners, known b := fun b hb => howners b (by simp [hb])
      rw [Store.getValidatorsByPower.go]
      split_ifs
      · trivial
      · refine (getIndexed_avoids hs (howners a (by simp))).bind fun _ _ => ?_
        split_ifs
        · exact (ih (i + 1) hrest).bind fun _ _ => avoids_pure _ _
        · exact ih i hrest
  exact hgo _ 0 fun a => hs.mem_byPower

end Avoids

/-! ## The last shares of a validator -/

/-- The by-power key of a validator that has lost all its shares. -/
def emptyKey (ctx : Ctx) (s : Store) (w v : Validator) : Bytes :=
  if w.status = .bonded then powerRank v.revoked 0 w.bondHeight w.bondIntraTxCounter
  else powerRank v.revoked 0 ctx.blockHeight s.intraTxCounter

/-- When a validator is left without delegator shares, the cliff is elsewhere or about to be
cleared, all its by-power entries are under the key computed from its old record, and its new key
does not rank exactly last among the places of the bonded set. -/
def Vacates (ctx : Ctx) (s : Store) (v : Validator) : Prop :=
  v.delegatorShares = 0 → ∀ w ∈ s.getValidator v.owner,
    (s.validatorCliff = some v.owner → v.revoked = true ∧ w.status = .bonded) ∧
    Returns (fun oldKey =>
        (∀ entry ∈ s.validatorsByPower.toList, entry.2 = v.owner → entry.1 = oldKey) ∧
        (s.validatorsByPower.toList.filter fun entry =>
          entry.1 ≠ oldKey ∧ emptyKey ctx s w v < entry.1).length + 1 ≠ s.params.maxValidators)
      (getValidatorsByPowerIndexKey w s.pool)

instance (ctx : Ctx) (s : Store) (v : Validator) : Decidable (Vacates ctx s v) :=
  inferInstanceAs (Decidable (_ → ∀ w ∈ _, _ ∧ Returns _ _))

variable {v : Validator} {key : Bytes} {s : Store} {w : Validator} {ctx : Ctx} {s' : Store}
  {v' : Validator}

theorem key_of_zero {pool : Pool} (hamount : v.poolShares.amount = 0)
    (h : getValidatorsByPowerIndexKey v pool = .ok key) :
    key = powerRank v.revoked 0 v.bondHeight v.bondIntraTxCounter := by
  simp only [getValidatorsByPowerIndexKey, getValidatorPowerRank, Validator.equivalentBondedShares,
    bind_eq_ok, pure_eq_ok] at h
  obtain ⟨power, ⟨shares, hshares, rfl⟩, rfl⟩ := h
  have hzero : shares.amount = 0 := by
    rcases PoolShares.amountAs_eq_ok.mp (PoolShares.toBonded_eq_ok hshares) with ⟨-, h⟩ | ⟨-, -, h⟩
    · rw [← h, hamount]
    · rw [← h, hamount, zero_mul]
  rw [hzero, evaluateBig_zero]

theorem length_above_of_last {a : Address} (hmax : 0 < s.params.maxValidators.val)
    (honly : ∀ k : Bytes, s.validatorsByPower[k]? = some a → k = key)
    (hfull : s.visited.length = s.params.maxValidators) (hlast : s.visited.getLast? = some a) :
    (s.validatorsByPower.toList.filter fun entry => key < entry.1).length + 1 =
      s.params.maxValidators := by
  rw [List.getLast?_eq_getElem?, hfull, Store.visited, List.getElem?_take_of_lt (by omega),
    Store.byPower, List.getElem?_map, Option.map_eq_some_iff] at hlast
  obtain ⟨⟨k, b⟩, hentry, rfl⟩ := hlast
  have hstored := KVStore.mem_descending.mp (List.mem_of_getElem? hentry)
  rw [← honly k hstored, KVStore.length_filter_of_descending hentry]
  omega

/-! ## One step -/

/-- The indexes and the cliff name stored validators only, and an entry of the public-key index the
validator with that key. -/
structure Linked (s : Store) : Prop where
  names : Names (fun a => ∃ v, s.getValidator a = some v) s
  pubKeys : PubKeyEntries s
  places : 0 < s.params.maxValidators.val

theorem Names.self {known : Address → Prop} (hs : Names known s) :
    Names (fun a => ∃ v, s.getValidator a = some v) s := by
  have hknown : (fun a => ∃ v, s.getValidator a = some v) = known :=
    funext fun a => propext (hs.records a)
  rwa [hknown]

theorem Linked.registered {s₀ : Store} {msg : MsgCreateValidator} (hs : Linked s)
    (h : registerValidator s msg = .ok (s₀, w)) : Linked s₀ := by
  have hknown : ∀ {a}, (∃ u, s.getValidator a = some u) → ∃ u, s₀.getValidator a = some u :=
    fun ⟨u, hu⟩ => ⟨u, registerValidator_keeps h hu⟩
  obtain ⟨-, -, -, rfl⟩ := registerValidator_eq_ok h
  refine ⟨⟨hs.names.keyed.insert w, fun a => Iff.rfl, ?_, ?_, ?_⟩, hs.pubKeys.registered h, hs.places⟩
  · exact fun k a ha => ⟨(hs.names.bonded k a ha).1, hknown (hs.names.bonded k a ha).2⟩
  · exact fun key a ha => hknown (hs.names.power key a ha)
  · exact fun a ha => hknown (hs.names.cliff a ha)

theorem Linked.changed {s₁ : Store} (hs : Linked s) (h : Changed s s₁ w v) : Linked s₁ := by
  rw [h.frame]
  exact ⟨{ hs.names with }, hs.pubKeys, hs.places⟩

theorem Linked.updated (hs : Linked s) (hw : s.getValidator v.owner = some w)
    (hpubKey : v.pubKey = w.pubKey) (h : s.updateValidator ctx v = .ok (s', v')) : Linked s' := by
  have hupdated := Store.updateValidator_updated hs.names.keyed hw h
  refine ⟨(hs.names.updateValidator ⟨w, hw⟩ h).self, hs.pubKeys.updated hw hpubKey hupdated, ?_⟩
  rw [hupdated.touches.params]
  exact hs.places

theorem Linked.removed {a : Address} (hs : Linked s) (hv : s.getValidator a = some v)
    (hcliff : s.validatorCliff ≠ some a)
    (hindex : ∀ k key : Bytes, s.validatorsByPower[k]? = some a →
      getValidatorsByPowerIndexKey v s.pool = .ok key → k = key) (h : s.removeValidator a = .ok s')
    : Linked s' := by
  have hpubKeys := hs.pubKeys.removed hv h
  have hget := removeValidator_getValidator hv h
  have hknown : ∀ {b}, b ≠ a → (∃ u, s.getValidator b = some u) → ∃ u, s'.getValidator b = some u :=
    fun hb ⟨u, hu⟩ => ⟨u, (hget _ u).mpr ⟨hb.symm, hu⟩⟩
  obtain ⟨key, hkey, rfl⟩ := removeValidator_eq_ok hv h
  have howner : v.owner = a := hs.names.keyed a v hv
  refine ⟨⟨?_, fun b => Iff.rfl, ?_, ?_, ?_⟩, hpubKeys, hs.places⟩
  · exact fun b u hu => hs.names.keyed b u ((hget b u).mp hu).2
  · intro k b hb
    have hb' : (s.validatorsBonded.erase v.owner)[k]? = some b := hb
    rw [KVStore.getElem?_erase, howner] at hb'
    split_ifs at hb' with hk
    obtain ⟨rfl, hstored⟩ := hs.names.bonded k b hb'
    exact ⟨rfl, hknown (Ne.symm hk) hstored⟩
  · intro k b hb
    have hb' : (s.validatorsByPower.erase key)[k]? = some b := hb
    rw [KVStore.getElem?_erase] at hb'
    split_ifs at hb' with hk
    refine hknown ?_ (hs.names.power k b hb')
    rintro rfl
    exact hk (hindex k key hb' hkey).symm
  · intro b hb
    refine hknown ?_ (hs.names.cliff b hb)
    rintro rfl
    exact hcliff hb

/-! ## The last update of a validator -/

theorem Restamped.length_above {oldKey : Bytes} (h : Restamped ctx s s' w v' oldKey key) :
    (s'.validatorsByPower.toList.filter fun entry => key < entry.1).length =
      (s.validatorsByPower.toList.filter fun entry =>
        entry.1 ≠ oldKey ∧ key < entry.1).length := by
  refine List.Perm.length_eq ((List.perm_ext_iff_of_nodup ((KVStore.toList_nodup _).filter _)
    ((KVStore.toList_nodup _).filter _)).mpr ?_)
  rintro ⟨k, a⟩
  simp only [List.mem_filter, KVStore.mem_toList, decide_eq_true_eq, h.entry]
  constructor
  · rintro ⟨⟨rfl, -⟩ | ⟨-, hne, hk⟩, hlt⟩
    · exact absurd hlt (lt_irrefl _)
    · exact ⟨hk, hne, hlt⟩
  · rintro ⟨hk, hne, hlt⟩
    exact ⟨.inr ⟨hlt.ne', hne, hk⟩, hlt⟩

/-- Without shares, the new key and the one that `RemoveValidator` computes are `emptyKey`. -/
theorem updateValidator_empty (hkeyed : s.Keyed) (hw : s.getValidator v.owner = some w)
    (hamount : v.poolShares.amount = 0) (h : s.updateValidator ctx v = .ok (s', v')) :
    (∃ oldKey, Restamped ctx s s' w v' oldKey (emptyKey ctx s w v)) ∧
      ∀ key, getValidatorsByPowerIndexKey v' s'.pool = .ok key → key = emptyKey ctx s w v := by
  obtain ⟨s₁, v₁, oldKey, key, hrerank, hcore, hre⟩ := updateValidator_restamped hkeyed hw h
  have hzero := Store.rerank_zero hw hamount hrerank
  have hrevoked := Validator.revoked_eq_of_identity
    (Store.updateValidator_updated hkeyed hw h).identity
  have hempty : powerRank v'.revoked 0 v'.bondHeight v'.bondIntraTxCounter = emptyKey ctx s w v := by
    unfold emptyKey
    rcases hre.stamp with ⟨hstatus, hheight, hcounter, -⟩ | ⟨hstatus, hheight, hcounter, -⟩
    · rw [if_pos hstatus, hrevoked, hheight, hcounter]
    · rw [if_neg hstatus, hrevoked, hheight, hcounter]
  have hkey : key = emptyKey ctx s w v := by
    obtain ⟨-, -, hkey, -⟩ := Store.rerank_cases hw hrerank
    have hcopy := congrArg (fun u => powerRank u.revoked 0 u.bondHeight u.bondIntraTxCounter) hcore
    rw [key_of_zero hzero hkey, ← hempty]
    exact hcopy.symm
  have hzero' := Store.updateValidator_zero hw hamount h
  exact ⟨⟨oldKey, hkey ▸ hre⟩, fun key' hkey' => (key_of_zero hzero' hkey').trans hempty⟩

/-- A validator that vacates its place can be removed. -/
theorem Linked.vacated {s'' : Store} (hs : Linked s) (hw : s.getValidator v.owner = some w)
    (hpubKey : v.pubKey = w.pubKey) (hempty : v.delegatorShares = 0)
    (hamount : v.poolShares.amount = 0) (hvacates : Vacates ctx s v)
    (h : s.updateValidator ctx v = .ok (s', v')) (hremove : s'.removeValidator v'.owner = .ok s'') :
    Linked s'' := by
  have hupdated := Store.updateValidator_updated hs.names.keyed hw h
  obtain ⟨⟨oldKey, hre⟩, hkey⟩ := updateValidator_empty hs.names.keyed hw hamount h
  obtain ⟨hcliff, hplace⟩ := hvacates hempty w hw
  obtain ⟨honly, hplace⟩ := hplace.of_ok hre.computed
  have honly' : ∀ k : Bytes, s'.validatorsByPower[k]? = some v.owner → k = emptyKey ctx s w v := by
    intro k hk
    rcases (hre.entry k _).mp hk with ⟨rfl, -⟩ | ⟨-, hne, hk⟩
    · rfl
    · exact absurd (honly (k, v.owner) (KVStore.mem_toList.mpr hk) rfl) hne
  refine (hs.updated hw hpubKey h).removed hupdated.self ?_ ?_ hremove
  · rw [hupdated.owner]
    intro hset
    have hparams := hupdated.touches.params
    rcases Store.updateValidator_cliff hs.places hs.names.keyed hw h with
      ⟨hkept, hcleared⟩ | hnone | ⟨hfull, a, hlast, hset'⟩
    · exact hcleared (hcliff (hkept ▸ hset))
    · rw [hnone] at hset
      cases hset
    · obtain rfl : a = v.owner := Option.some.inj (hset'.symm.trans hset)
      rw [← hparams] at hfull
      have habove := length_above_of_last (by rw [hparams]; exact hs.places) honly' hfull hlast
      rw [hre.length_above, hparams] at habove
      exact hplace habove
  · intro k key hk hkey'
    rw [hupdated.owner] at hk
    rw [honly' k hk, hkey key hkey']

/-! ## Runs -/

theorem linked_maintained :
    Maintains (fun _ => Linked)
      (fun _ s v => Linked s ∧ ∀ w, s.getValidator v.owner = some w → v.pubKey = w.pubKey)
      Vacates (fun _ _ => True) where
  register _ hs _ hregister hchanged := by
    refine ⟨(hs.registered hregister).changed hchanged, fun w hw => ?_⟩
    exact hchanged.record_eq hw ▸ hchanged.pubKey
  change _ hs hchanged :=
    ⟨hs.changed hchanged, fun w hw => hchanged.record_eq hw ▸ hchanged.pubKey⟩
  update _ hJ _ hw hupdate := hJ.1.updated hw (hJ.2 _ hw) hupdate
  remove _ hJ hvacates hw hupdate hempty hamount hremove :=
    hJ.1.vacated hw (hJ.2 _ hw) hempty hamount hvacates hupdate hremove
  records _ _ _ _ _ _ hs := ⟨{ hs.names with }, hs.pubKeys, hs.places⟩

theorem linked_endBlock : KeptByEndBlock fun _ => Linked := by
  intro ctx s looseTokens inflation blockTime _ hs _
  exact ⟨{ hs.names with }, hs.pubKeys, hs.places⟩

theorem linked_emptyStore {params : Params} (pool : Pool) (accounts : Auth.AccountStore)
    (hplaces : 0 < params.maxValidators.val) : Linked (emptyStore params pool accounts) := by
  refine ⟨⟨?_, fun a => Iff.rfl, ?_, ?_, ?_⟩, ?_, hplaces⟩
  · intro a v hv
    simp at hv
  all_goals simp [emptyStore, PubKeyEntries]

/-- Every address in a validator index, and the cliff, owns a record, and neither reading the
indexes nor updating a stored validator panics on a missing one. -/
structure Intact (s : Store) : Prop where
  bonded : ∀ k a : Address, s.validatorsBonded[k]? = some a →
    ∃ v, s.getValidator a = some v ∧ v.owner = a
  power : ∀ (key : Bytes) a, s.validatorsByPower[key]? = some a →
    ∃ v, s.getValidator a = some v ∧ v.owner = a
  pubKey : ∀ (pk : PubKey) a, s.validatorsByPubKey[pk]? = some a →
    ∃ v, s.getValidator a = some v ∧ v.owner = a
  cliff : ∀ a, s.validatorCliff = some a → ∃ v, s.getValidator a = some v ∧ v.owner = a
  readBonded : Avoids RecordMissing s.getValidatorsBonded
  readByPower : Avoids RecordMissing s.getValidatorsByPower
  update : ∀ ctx v w, s.getValidator v.owner = some w →
    Avoids RecordMissing (s.updateBondedValidators v) ∧
      Avoids RecordMissing (s.updateValidator ctx v)

theorem Linked.intact (hs : Linked s) : Intact s := by
  have howner : ∀ {a}, (∃ v, s.getValidator a = some v) →
      ∃ v, s.getValidator a = some v ∧ v.owner = a :=
    fun ⟨v, hv⟩ => ⟨v, hv, hs.names.keyed _ v hv⟩
  refine ⟨?_, ?_, ?_, ?_, getValidatorsBonded_avoids hs.names, getValidatorsByPower_avoids hs.names,
    ?_⟩
  · exact fun k a ha => howner (hs.names.bonded k a ha).2
  · exact fun key a ha => howner (hs.names.power key a ha)
  · intro pk a ha
    obtain ⟨v, hv, -⟩ := hs.pubKeys pk a ha
    exact howner ⟨v, hv⟩
  · exact fun a ha => howner (hs.names.cliff a ha)
  · exact fun ctx v w hw =>
      ⟨updateBondedValidators_avoids hs.names ⟨w, hw⟩, updateValidator_avoids hs.names ⟨w, hw⟩⟩

/-- In a run from an empty store in which every validator that loses its last shares vacates its
place, no index entry is dangling. -/
theorem indexes_name_records {params : Params} {pool : Pool} {accounts : Auth.AccountStore}
    {ctx : Ctx} {history : List (State × Op)} {st : State} (hplaces : 0 < params.maxValidators.val)
    (hrun : Run step ⟨ctx, emptyStore params pool accounts⟩ history st)
    (horderly : Run.Meets (Orderly Vacates fun _ _ => True) history) : Intact st.store :=
  (linked_maintained.run linked_endBlock (emptyStore_wellFormed _ _ _)
    (linked_emptyStore pool accounts hplaces) hrun horderly).2.intact

/-- Two validators leave: one that is not bonded and one that is bonded and revoked. -/
def leaving : List Op :=
  [Example.create 1 10, Example.create 2 9, Example.create 3 5, Example.unbond 3 3 5,
    Example.create 4 8, .endBlock 10, Example.unbond 2 2 9]

theorem indexes_name_records_example :
    ∃ st, Run step (Example.genesis 2) (Run.historyOf step (Example.genesis 2) leaving) st ∧
      Intact st.store := by
  obtain ⟨st, hrun, -⟩ := Run.of_leadsTo step (Example.genesis 2) leaving (fun _ => true)
    (by decide +kernel)
  exact ⟨st, hrun, indexes_name_records (by decide) hrun (by decide +kernel)⟩

/-- The only validator of a chain with one place leaves.  Its update makes it the cliff once more,
and then its record is removed. -/
def lastOneLeaves : List Op := [Example.create 1 10, Example.unbond 1 1 10]

/-- After that, the cliff names a validator that has no record. -/
theorem indexes_name_records_fails :
    ∃ st, Run step (Example.genesis 1) (Run.historyOf step (Example.genesis 1) lastOneLeaves) st ∧
      ¬ Intact st.store := by
  obtain ⟨st, hrun, htest⟩ := Run.of_leadsTo step (Example.genesis 1) lastOneLeaves
    (fun st => decide (st.store.validatorCliff = some [1] ∧ st.store.getValidator [1] = none))
    (by decide +kernel)
  obtain ⟨hcliff, hnone⟩ := of_decide_eq_true htest
  refine ⟨st, hrun, fun hs => ?_⟩
  obtain ⟨v, hv, -⟩ := hs.cliff [1] hcliff
  rw [hnone] at hv
  cases hv

end Tepleton.Stake
