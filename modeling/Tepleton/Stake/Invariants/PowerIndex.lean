import Tepleton.Stake.Steps

/-!
# One index entry per validator

The key of a by-power entry ends in the height and counter at which its validator got its place in
line, its *stamp*.  Stamps are handed out once: the counter counts up within a block and heights
from block to block.  So two validators never have the same key, and an update can neither delete
nor overwrite the entry of another validator.

What can go wrong is that an update misses the validator's own entry.  It deletes the key computed
from the old record at the current exchange rates, and the entry was written at the rates of an
earlier moment.  As long as that key is the only one the validator has an entry under, and the
counter does not run through all its 65536 values in one block, every stored validator has exactly
one entry.
-/

namespace Tepleton.Stake

open Lib

/-! ## Stamps -/

/-- The stamp a key ends in. -/
def keyStamp (key : Bytes) : Bytes := key.drop (key.length - 12)

variable {v w : Validator} {ctx : Ctx} {s : Store} {height counter : ℤ} {s' : Store}

@[simp] theorem keyStamp_powerRank (revoked : Bool) (power height counter : ℤ) :
    keyStamp (powerRank revoked power height counter) = stampBytes height counter := by
  rw [powerRank, ← List.append_assoc, keyStamp]
  exact List.drop_left' (by simp)

theorem keyStamp_of_key {pool : Pool} {key : Bytes}
    (h : getValidatorsByPowerIndexKey v pool = .ok key) : keyStamp key = v.stamp := by
  simp only [getValidatorsByPowerIndexKey, getValidatorPowerRank, bind_eq_ok, pure_eq_ok] at h
  obtain ⟨power, -, rfl⟩ := h
  exact keyStamp_powerRank _ _ _ _

theorem stamp_eq_of_core (h : v.core = w.core) : v.stamp = w.stamp := by
  have hstamp := congrArg Validator.stamp h
  exact hstamp

/-- A stamp handed out before the point reached in the block: at a lower height or at this height
with a lower counter.  The counter is an `int16` that starts at zero and wraps around. -/
def Before (ctx : Ctx) (s : Store) (height counter : ℤ) : Prop :=
  0 ≤ height ∧ (height < ctx.blockHeight ∨
    height = ctx.blockHeight ∧ counter % 2 ^ 16 < s.intraTxCounter % 2 ^ 16)

theorem stampBytes_ne_of_before (hnow : ctx.blockHeight < 2 ^ 63) (h : Before ctx s height counter)
    : stampBytes height counter ≠ stampBytes ctx.blockHeight s.intraTxCounter := by
  rw [Ne, stampBytes_inj, invertHeight, invertHeight, invertCounter, invertCounter]
  obtain ⟨hpos, hlow | ⟨rfl, hcounter⟩⟩ := h <;> omega

theorem Before.count
    (hrange : s.intraTxCounter ≠ -1 ∧ -2 ^ 15 ≤ s.intraTxCounter ∧ s.intraTxCounter < 2 ^ 15)
    (hcount : s'.intraTxCounter = int16 (s.intraTxCounter + 1))
    (h : Before ctx s height counter ∨
      0 ≤ height ∧ height = ctx.blockHeight ∧ counter = s.intraTxCounter) :
    Before ctx s' height counter := by
  have hnext : s'.intraTxCounter % 2 ^ 16 = s.intraTxCounter % 2 ^ 16 + 1 := by
    rw [hcount, int16]
    have := Int.bmod_emod (x := s.intraTxCounter + 1) (m := 2 ^ 16)
    omega
  rcases h with ⟨hpos, hlow | ⟨rfl, hcounter⟩⟩ | ⟨hpos, rfl, rfl⟩
  · exact ⟨hpos, .inl hlow⟩
  · exact ⟨hpos, .inr ⟨rfl, by omega⟩⟩
  · exact ⟨hpos, .inr ⟨rfl, by omega⟩⟩

theorem stampBytes_ne_zero {counter' : ℤ} (hpos : 0 < height) (hheight : height < 2 ^ 63) :
    stampBytes height counter ≠ stampBytes 0 counter' := by
  rw [Ne, stampBytes_inj, invertHeight, invertHeight]
  omega

theorem Before.lt (hnow : ctx.blockHeight < 2 ^ 63) (h : Before ctx s height counter) : height < 2 ^
    63 := by
  rcases h with ⟨-, hlow | ⟨rfl, -⟩⟩ <;> omega

/-! ## The invariant -/

/-- What holds of the by-power index.  The validators in `pending` may still lack an entry. -/
structure Ranked (ctx : Ctx) (s : Store) (pending : Address → Prop) : Prop where
  indexed : ∀ a v, ¬ pending a → s.getValidator a = some v →
    ∃! key : Bytes, s.validatorsByPower[key]? = some a
  stamped : ∀ (key : Bytes) a v, ¬ pending a → s.validatorsByPower[key]? = some a →
    s.getValidator a = some v → keyStamp key = v.stamp
  own : ∀ (key : Bytes) a b v, s.validatorsByPower[key]? = some a → s.getValidator b = some v →
    keyStamp key = v.stamp → a = b
  distinct : ∀ a b v w, s.getValidator a = some v → s.getValidator b = some w →
    v.stamp = w.stamp → a = b
  before : ∀ a v, s.getValidator a = some v → Before ctx s v.bondHeight v.bondIntraTxCounter
  positive : ∀ a v, s.getValidator a = some v → ¬ pending a ∨ v.status = .bonded → 0 < v.bondHeight
  entries : ∀ (key : Bytes) a, s.validatorsByPower[key]? = some a →
    ∃ height counter, 0 < height ∧ Before ctx s height counter ∧
      keyStamp key = stampBytes height counter
  height : 0 < ctx.blockHeight ∧ ctx.blockHeight < 2 ^ 63
  counter : -2 ^ 15 ≤ s.intraTxCounter ∧ s.intraTxCounter < 2 ^ 15

/-- Every stored validator has its entry. -/
def AllRanked (ctx : Ctx) (s : Store) : Prop := Ranked ctx s fun _ => False

/-- At an update, every entry of the validator is under the key computed from its old record at the
current pool, and a new stamp is not the last one of the block. -/
def FindsOldEntry (_ : Ctx) (s : Store) (v : Validator) : Prop :=
  ∀ w ∈ s.getValidator v.owner, (w.status ≠ .bonded → s.intraTxCounter ≠ -1) ∧
    ∀ entry ∈ s.validatorsByPower.toList, entry.2 = v.owner →
      getValidatorsByPowerIndexKey w s.pool = .ok entry.1

instance (ctx : Ctx) (s : Store) (v : Validator) : Decidable (FindsOldEntry ctx s v) :=
  inferInstanceAs (Decidable (∀ w ∈ _, _ ∧ ∀ entry ∈ _, _))

/-! ## Preparing an update -/

theorem AllRanked.registered {s₀ : Store} {msg : MsgCreateValidator} (hs : AllRanked ctx s)
    (h : registerValidator s msg = .ok (s₀, w)) : Ranked ctx s₀ (· = w.owner) := by
  obtain ⟨-, -, hw, rfl⟩ := registerValidator_eq_ok h
  have hstamp : w.stamp = stampBytes 0 0 := by rw [hw]; rfl
  have hget := fun a v => (registerValidator_getValidator h a v).mp
  -- no stamp in use is that of the blank record
  have hblank : ∀ a v, s.getValidator a = some v → v.stamp ≠ w.stamp := by
    intro a v hv
    rw [hstamp]
    exact stampBytes_ne_zero (hs.positive a v hv (.inl not_false))
      ((hs.before a v hv).lt hs.height.2)
  refine ⟨?_, ?_, ?_, ?_, ?_, ?_, hs.entries, hs.height, hs.counter⟩
  · intro a v ha hv
    rcases hget a v hv with ⟨hpending, -⟩ | ⟨-, hv⟩
    · exact absurd hpending ha
    · exact hs.indexed a v not_false hv
  · intro key a v ha hkey hv
    rcases hget a v hv with ⟨hpending, -⟩ | ⟨-, hv⟩
    · exact absurd hpending ha
    · exact hs.stamped key a v not_false hkey hv
  · intro key a b v hkey hv heq
    rcases hget b v hv with ⟨rfl, rfl⟩ | ⟨-, hv⟩
    · obtain ⟨height, counter, hpos, hbefore, hentry⟩ := hs.entries key a hkey
      rw [hentry, hstamp] at heq
      exact absurd heq (stampBytes_ne_zero hpos (hbefore.lt hs.height.2))
    · exact hs.own key a b v hkey hv heq
  · intro a b v u hv hu heq
    rcases hget a v hv with ⟨ha, rfl⟩ | ⟨-, hv₀⟩ <;> rcases hget b u hu with ⟨hb, hu'⟩ | ⟨-, hu₀⟩
    · rw [ha, hb]
    · exact absurd heq.symm (hblank b u hu₀)
    · exact absurd (hu' ▸ heq) (hblank a v hv₀)
    · exact hs.distinct a b v u hv₀ hu₀ heq
  · intro a v hv
    rcases hget a v hv with ⟨-, rfl⟩ | ⟨-, hv⟩
    · rw [hw]
      exact ⟨le_rfl, .inl hs.height.1⟩
    · exact hs.before a v hv
  · intro a v hv hor
    rcases hget a v hv with ⟨ha, rfl⟩ | ⟨-, hv⟩
    · rcases hor with hpending | hbonded
      · exact absurd ha hpending
      · rw [hw] at hbonded
        cases hbonded
    · exact hs.positive a v hv (.inl not_false)

theorem Ranked.changed {s₁ : Store} {pending : Address → Prop} (hs : Ranked ctx s pending)
    (h : Changed s s₁ w v) : Ranked ctx s₁ pending := by
  rw [h.frame]
  exact { hs with }

theorem AllRanked.weaken (hs : AllRanked ctx s) (pending : Address → Prop) : Ranked ctx s pending :=
  ⟨fun a v _ => hs.indexed a v not_false, fun key a v _ => hs.stamped key a v not_false, hs.own,
    hs.distinct, hs.before, fun a v hv _ => hs.positive a v hv (.inl not_false), hs.entries,
    hs.height, hs.counter⟩

/-! ## The update -/

/-- What an update does to the index: the entry under `oldKey` gives way to one under `key`, which
ends in the stamp of the new record.  A bonded validator keeps its stamp, any other gets the next
one. -/
structure Restamped (ctx : Ctx) (s s' : Store) (w v' : Validator) (oldKey key : Bytes) : Prop where
  index : s'.validatorsByPower = s.reindexed oldKey key w.owner
  computed : getValidatorsByPowerIndexKey w s.pool = .ok oldKey
  keyStamp : keyStamp key = v'.stamp
  stamp : (w.status = .bonded ∧ v'.bondHeight = w.bondHeight ∧
      v'.bondIntraTxCounter = w.bondIntraTxCounter ∧ s'.intraTxCounter = s.intraTxCounter) ∨
    (w.status ≠ .bonded ∧ v'.bondHeight = ctx.blockHeight ∧
      v'.bondIntraTxCounter = s.intraTxCounter ∧
      s'.intraTxCounter = int16 (s.intraTxCounter + 1))

theorem updateValidator_restamped {v' : Validator} (hkeyed : s.Keyed)
    (hw : s.getValidator v.owner = some w) (h : s.updateValidator ctx v = .ok (s', v')) :
    ∃ s₁ v₁ oldKey key, s.rerank ctx v = .ok (s₁, v₁, key) ∧ v'.core = v₁.core ∧
      Restamped ctx s s' w v' oldKey key := by
  obtain ⟨s₁, v₁, key, hrerank, hcore, hindex, hcounter⟩ :=
    Store.updateValidator_rerank hkeyed hw h
  obtain ⟨oldKey, holdKey, hkey, hcase⟩ := Store.rerank_cases hw hrerank
  have hheight := congrArg Validator.bondHeight hcore
  have hplace := congrArg Validator.bondIntraTxCounter hcore
  change v'.bondHeight = v₁.bondHeight at hheight
  change v'.bondIntraTxCounter = v₁.bondIntraTxCounter at hplace
  have hstamp : keyStamp key = v'.stamp := (keyStamp_of_key hkey).trans (stamp_eq_of_core hcore.symm)
  have howner : w.owner = v.owner := hkeyed _ w hw
  refine ⟨s₁, v₁, oldKey, key, hrerank, hcore, ?_, holdKey, hstamp, ?_⟩
  · rw [hindex, howner]
    rcases hcase with ⟨-, -, s₀, v₀, -, -, rfl⟩ | ⟨-, -, -, rfl⟩ | ⟨-, -, rfl⟩ <;> rfl
  · rw [hheight, hplace, hcounter]
    rcases hcase with ⟨-, hbonded, s₀, v₀, hunbond, rfl, rfl⟩ | ⟨-, hbonded, rfl, rfl⟩ |
      ⟨hbonded, rfl, rfl⟩
    · obtain ⟨-, pool, -, rfl⟩ := Store.unbondValidator_eq_ok.mp hunbond
      exact .inl ⟨hbonded, rfl, rfl, rfl⟩
    · exact .inl ⟨hbonded, rfl, rfl, rfl⟩
    · exact .inr ⟨hbonded, rfl, rfl, rfl⟩

namespace Restamped

variable {ctx : Ctx} {s s' : Store} {w v' : Validator} {oldKey key : Bytes}
  {pending : Address → Prop}

theorem oldStamp (h : Restamped ctx s s' w v' oldKey key) : Stake.keyStamp oldKey = w.stamp :=
  keyStamp_of_key h.computed

theorem entry (h : Restamped ctx s s' w v' oldKey key) (k : Bytes) (a : Address) :
    s'.validatorsByPower[k]? = some a ↔
      (k = key ∧ a = w.owner) ∨ (k ≠ key ∧ k ≠ oldKey ∧ s.validatorsByPower[k]? = some a) := by
  rw [h.index, Store.reindexed, KVStore.getElem?_insert, KVStore.getElem?_erase]
  by_cases hkey : key = k
  · simp [hkey, eq_comm]
  · by_cases hold : oldKey = k
    · simp [hkey, hold, Ne.symm hkey]
    · simp [hkey, hold, Ne.symm hkey, Ne.symm hold]

theorem before (h : Restamped ctx s s' w v' oldKey key) (hs : Ranked ctx s pending)
    (hcounter : w.status ≠ .bonded → s.intraTxCounter ≠ -1) {height counter : ℤ}
    (hbefore : Before ctx s height counter) : Before ctx s' height counter := by
  rcases h.stamp with ⟨-, -, -, hsame⟩ | ⟨hstatus, -, -, hcount⟩
  · rwa [Before, hsame]
  · exact .count ⟨hcounter hstatus, hs.counter⟩ hcount (.inl hbefore)

theorem unused (h : Restamped ctx s s' w v' oldKey key) (hs : Ranked ctx s pending)
    (hw : s.getValidator w.owner = some w) :
    (∀ a u, s.getValidator a = some u → u.stamp = v'.stamp → a = w.owner) ∧
      ∀ (k : Bytes) a, s.validatorsByPower[k]? = some a → Stake.keyStamp k = v'.stamp →
        a = w.owner := by
  rcases h.stamp with ⟨-, hheight, hplace, -⟩ | ⟨-, hheight, hplace, -⟩
  · have hsame : v'.stamp = w.stamp := by rw [Validator.stamp, hheight, hplace, Validator.stamp]
    rw [hsame]
    exact ⟨fun a u hu heq => hs.distinct a _ u w hu hw heq,
      fun k a hk heq => hs.own k a _ w hk hw heq⟩
  · have hnew : v'.stamp = stampBytes ctx.blockHeight s.intraTxCounter := by
      rw [Validator.stamp, hheight, hplace]
    rw [hnew]
    constructor
    · intro a u hu heq
      exact absurd heq (stampBytes_ne_of_before hs.height.2 (hs.before a u hu))
    · intro k a hk heq
      obtain ⟨height, counter, -, hbefore, hstamp⟩ := hs.entries k a hk
      exact absurd (hstamp.symm.trans heq) (stampBytes_ne_of_before hs.height.2 hbefore)

theorem placed (h : Restamped ctx s s' w v' oldKey key) (hs : Ranked ctx s pending)
    (hw : s.getValidator w.owner = some w)
    (hcounter : w.status ≠ .bonded → s.intraTxCounter ≠ -1) :
    0 < v'.bondHeight ∧ Before ctx s' v'.bondHeight v'.bondIntraTxCounter := by
  rcases h.stamp with ⟨hstatus, hheight, hplace, hsame⟩ | ⟨hstatus, hheight, hplace, hcount⟩
  · rw [hheight, hplace, Before, hsame]
    exact ⟨hs.positive _ w hw (.inr hstatus), hs.before _ w hw⟩
  · rw [hheight, hplace]
    exact ⟨hs.height.1, .count ⟨hcounter hstatus, hs.counter⟩ hcount
      (.inr ⟨hs.height.1.le, rfl, rfl⟩)⟩

theorem counter_range (h : Restamped ctx s s' w v' oldKey key) (hs : Ranked ctx s pending) :
    -2 ^ 15 ≤ s'.intraTxCounter ∧ s'.intraTxCounter < 2 ^ 15 := by
  rcases h.stamp with ⟨-, -, -, hsame⟩ | ⟨-, -, -, hcount⟩
  · rw [hsame]
    exact hs.counter
  · have hlow := Int.le_bmod (x := s.intraTxCounter + 1) (m := 2 ^ 16) (by decide)
    have hhigh := Int.bmod_lt (x := s.intraTxCounter + 1) (m := 2 ^ 16) (by decide)
    rw [hcount, int16]
    omega

end Restamped

/-- An update that finds the validator's old entry leaves every validator with one entry. -/
theorem Ranked.updated {v' : Validator} (hs : Ranked ctx s (· = v.owner)) (hkeyed : s.Keyed)
    (hw : s.getValidator v.owner = some w) (hfinds : FindsOldEntry ctx s v)
    (h : s.updateValidator ctx v = .ok (s', v')) : AllRanked ctx s' := by
  have hupdated := Store.updateValidator_updated hkeyed hw h
  obtain ⟨-, -, oldKey, key, -, -, hre⟩ := updateValidator_restamped hkeyed hw h
  have howner : w.owner = v.owner := hkeyed _ w hw
  have hw' : s.getValidator w.owner = some w := by rw [howner, hw]
  obtain ⟨hcounter, hfinds⟩ := hfinds w hw
  have honly : ∀ k : Bytes, s.validatorsByPower[k]? = some v.owner → k = oldKey := by
    intro k hk
    have hold := hfinds (k, v.owner) (KVStore.mem_toList.mpr hk) rfl
    rw [hre.computed] at hold
    exact (Except.ok.inj hold).symm
  obtain ⟨hunused, hunused'⟩ := hre.unused hs hw'
  obtain ⟨hpositive, hbefore⟩ := hre.placed hs hw' hcounter
  -- every record is the new one or has kept its stamp
  have hget : ∀ a u, s'.getValidator a = some u → a = v.owner ∧ u = v' ∨
      a ≠ v.owner ∧ ∃ u₀, s.getValidator a = some u₀ ∧ u.stamp = u₀.stamp ∧
        u.bondHeight = u₀.bondHeight ∧ u.bondIntraTxCounter = u₀.bondIntraTxCounter := by
    intro a u hu
    by_cases ha : a = v.owner
    · rw [ha, hupdated.stored] at hu
      exact .inl ⟨ha, (Option.some.inj hu).symm⟩
    · obtain ⟨u₀, hu₀, hcore⟩ := hupdated.before ha hu
      have hheight := congrArg Validator.bondHeight hcore
      have hplace := congrArg Validator.bondIntraTxCounter hcore
      exact .inr ⟨ha, u₀, hu₀, stamp_eq_of_core hcore, hheight, hplace⟩
  refine ⟨?_, ?_, ?_, ?_, ?_, ?_, ?_, hs.height, hre.counter_range hs⟩
  · intro a u _ hu
    rcases hget a u hu with ⟨rfl, rfl⟩ | ⟨ha, u₀, hu₀, -, -, -⟩
    · refine ⟨key, (hre.entry key _).mpr (.inl ⟨rfl, howner.symm⟩), fun k hk => ?_⟩
      rcases (hre.entry k _).mp hk with ⟨rfl, -⟩ | ⟨-, hne, hk⟩
      · rfl
      · exact absurd (honly k hk) hne
    · obtain ⟨k, hk, hunique⟩ := hs.indexed a u₀ ha hu₀
      refine ⟨k, (hre.entry k a).mpr (.inr ⟨?_, ?_, hk⟩), fun k' hk' => ?_⟩
      · rintro rfl
        exact ha ((hunused' k a hk hre.keyStamp).trans howner)
      · rintro rfl
        exact ha (hs.own k a _ w hk hw hre.oldStamp)
      · rcases (hre.entry k' a).mp hk' with ⟨-, ha'⟩ | ⟨-, -, hk'⟩
        · exact absurd (ha'.trans howner) ha
        · exact hunique k' hk'
  · intro k a u _ hk hu
    rcases hget a u hu with ⟨rfl, rfl⟩ | ⟨ha, u₀, hu₀, hstamp, -, -⟩
    · rcases (hre.entry k _).mp hk with ⟨rfl, -⟩ | ⟨-, hne, hk⟩
      · exact hre.keyStamp
      · exact absurd (honly k hk) hne
    · rcases (hre.entry k a).mp hk with ⟨-, ha'⟩ | ⟨-, -, hk⟩
      · exact absurd (ha'.trans howner) ha
      · rw [hstamp, hs.stamped k a u₀ ha hk hu₀]
  · intro k a b u hk hu heq
    rcases hget b u hu with ⟨rfl, rfl⟩ | ⟨hb, u₀, hu₀, hstamp, -, -⟩ <;>
      rcases (hre.entry k a).mp hk with ⟨rfl, ha⟩ | ⟨-, -, hk⟩
    · exact ha.trans howner
    · exact (hunused' k a hk heq).trans howner
    · rw [hre.keyStamp, hstamp] at heq
      exact absurd ((hunused b u₀ hu₀ heq.symm).trans howner) hb
    · exact hs.own k a b u₀ hk hu₀ (heq.trans hstamp)
  · intro a b u x hu hx heq
    rcases hget a u hu with ⟨rfl, rfl⟩ | ⟨ha, u₀, hu₀, hstamp, -, -⟩ <;>
      rcases hget b x hx with ⟨hb, hx'⟩ | ⟨hb, x₀, hx₀, hstamp', -, -⟩
    · exact hb.symm
    · exact absurd ((hunused b x₀ hx₀ (hstamp'.symm.trans heq.symm)).trans howner) hb
    · rw [hx', hstamp] at heq
      exact absurd ((hunused a u₀ hu₀ heq).trans howner) ha
    · exact hs.distinct a b u₀ x₀ hu₀ hx₀ (hstamp.symm.trans (heq.trans hstamp'))
  · intro a u hu
    rcases hget a u hu with ⟨-, rfl⟩ | ⟨-, u₀, hu₀, -, hheight, hplace⟩
    · exact hbefore
    · rw [hheight, hplace]
      exact hre.before hs hcounter (hs.before a u₀ hu₀)
  · intro a u hu _
    rcases hget a u hu with ⟨-, rfl⟩ | ⟨ha, u₀, hu₀, -, hheight, -⟩
    · exact hpositive
    · rw [hheight]
      exact hs.positive a u₀ hu₀ (.inl ha)
  · intro k a hk
    rcases (hre.entry k a).mp hk with ⟨rfl, -⟩ | ⟨-, -, hk⟩
    · exact ⟨_, _, hpositive, hbefore, hre.keyStamp⟩
    · obtain ⟨height, counter, hpos, hbefore, hstamp⟩ := hs.entries k a hk
      exact ⟨height, counter, hpos, hre.before hs hcounter hbefore, hstamp⟩

theorem AllRanked.removed {a : Address} (hs : AllRanked ctx s) (hv : s.getValidator a = some v)
    (h : s.removeValidator a = .ok s') : AllRanked ctx s' := by
  obtain ⟨key, hkey, rfl⟩ := removeValidator_eq_ok hv h
  have hget : ∀ b u, (s.validators.erase a)[b]? = some u →
      a ≠ b ∧ s.getValidator b = some u := by
    intro b u hu
    rwa [KVStore.getElem?_erase, ite_eq_iff, or_iff_right (by simp)] at hu
  have hindex : ∀ (k : Bytes) b, (s.validatorsByPower.erase key)[k]? = some b →
      s.validatorsByPower[k]? = some b := by
    intro k b hk
    rw [KVStore.getElem?_erase, ite_eq_iff, or_iff_right (by simp)] at hk
    exact hk.2
  refine ⟨?_, ?_, ?_, ?_, ?_, ?_, ?_, hs.height, hs.counter⟩
  · intro b u _ hu
    obtain ⟨hab, hu⟩ := hget b u hu
    obtain ⟨k, hk, hunique⟩ := hs.indexed b u not_false hu
    refine ⟨k, ?_, fun k' hk' => hunique k' (hindex k' b hk')⟩
    -- the deleted key ends in the stamp of the removed validator
    have hne : key ≠ k := by
      rintro rfl
      exact hab (hs.own key b a v hk hv (keyStamp_of_key hkey)).symm
    exact (KVStore.getElem?_erase_of_ne _ hne).trans hk
  · exact fun k b u _ hk hu => hs.stamped k b u not_false (hindex k b hk) (hget b u hu).2
  · exact fun k b c u hk hu => hs.own k b c u (hindex k b hk) (hget c u hu).2
  · exact fun b c u x hu hx => hs.distinct b c u x (hget b u hu).2 (hget c x hx).2
  · exact fun b u hu => hs.before b u (hget b u hu).2
  · exact fun b u hu => hs.positive b u (hget b u hu).2
  · exact fun k b hk => hs.entries k b (hindex k b hk)

/-! ## Runs -/

theorem allRanked_maintained :
    Maintains AllRanked (fun ctx s v => Ranked ctx s (· = v.owner)) FindsOldEntry
      (fun _ _ => True) where
  register _ hs _ hregister hchanged := by
    rw [hchanged.owner]
    exact (hs.registered hregister).changed hchanged
  change _ hs hchanged := (hs.weaken _).changed hchanged
  update hwell hs hfinds hw hupdate := hs.updated hwell.validators hw hfinds hupdate
  remove hwell hs hfinds hw hupdate _ _ hremove :=
    (hs.updated hwell.validators hw hfinds hupdate).removed
      (Store.updateValidator_updated hwell.validators hw hupdate).self hremove
  records _ _ _ _ _ _ hs := { hs with }

theorem allRanked_endBlock : KeptByEndBlock AllRanked := by
  intro ctx s looseTokens inflation blockTime _ hs hheight
  have hbefore : ∀ {height counter}, Before ctx s height counter →
      0 ≤ height ∧ height < ctx.blockHeight + 1 := by
    rintro height counter ⟨hpos, hlow | ⟨rfl, -⟩⟩ <;> omega
  refine ⟨hs.indexed, hs.stamped, hs.own, hs.distinct, ?_, hs.positive, ?_, ?_, ?_⟩
  · intro a v hv
    obtain ⟨hpos, hlt⟩ := hbefore (hs.before a v hv)
    exact ⟨hpos, .inl hlt⟩
  · intro key a hkey
    obtain ⟨height, counter, hpos, hb, hstamp⟩ := hs.entries key a hkey
    exact ⟨height, counter, hpos, ⟨hpos.le, .inl (hbefore hb).2⟩, hstamp⟩
  · have hpos := hs.height.1
    exact ⟨by dsimp only; omega, hheight⟩
  · exact ⟨by simp, by simp⟩

theorem allRanked_emptyStore (params : Params) (pool : Pool) (accounts : Auth.AccountStore)
    (hheight : 0 < ctx.blockHeight ∧ ctx.blockHeight < 2 ^ 63) :
    AllRanked ctx (emptyStore params pool accounts) := by
  have hindex : ∀ key : Bytes, (emptyStore params pool accounts).validatorsByPower[key]? = none := by
    simp [emptyStore]
  refine ⟨?_, ?_, ?_, ?_, ?_, ?_, ?_, hheight, ?_⟩
  case refine_8 => exact ⟨by simp [emptyStore], by simp [emptyStore]⟩
  all_goals simp [hindex]

/-- Every stored validator has exactly one entry in the by-power index, with its owner as the value,
and no two stored validators have the same key. -/
def OneEntryEach (s : Store) : Prop :=
  (∀ a v, s.getValidator a = some v → ∃! key : Bytes, s.validatorsByPower[key]? = some v.owner) ∧
    ∀ a b v w key, s.getValidator a = some v → s.getValidator b = some w →
      getValidatorsByPowerIndexKey v s.pool = .ok key →
      getValidatorsByPowerIndexKey w s.pool = .ok key → a = b

theorem AllRanked.oneEntryEach (hkeyed : s.Keyed) (hs : AllRanked ctx s) : OneEntryEach s := by
  constructor
  · intro a v hv
    rw [hkeyed a v hv]
    exact hs.indexed a v not_false hv
  · intro a b v w key hv hw hkey hkey'
    refine hs.distinct a b v w hv hw ?_
    rw [← keyStamp_of_key hkey, ← keyStamp_of_key hkey']

/-- In a run from an empty store in which every update finds the old entry of its validator under
the key it computes, every stored validator has exactly one entry in the by-power index. -/
theorem one_power_entry_each {params : Params} {pool : Pool} {accounts : Auth.AccountStore}
    {ctx : Ctx} {history : List (State × Op)} {st : State}
    (hheight : 0 < ctx.blockHeight ∧ ctx.blockHeight < 2 ^ 63)
    (hrun : Run step ⟨ctx, emptyStore params pool accounts⟩ history st)
    (horderly : Run.Meets (Orderly FindsOldEntry fun _ _ => True) history) :
    OneEntryEach st.store := by
  obtain ⟨hwell, hs⟩ := allRanked_maintained.run allRanked_endBlock (emptyStore_wellFormed _ _ _)
    (allRanked_emptyStore params pool accounts hheight) hrun horderly
  exact hs.oneEntryEach hwell.validators

/-- Validators come, are revoked, lose and gain shares and go. -/
def changingPowers : List Op :=
  [Example.create 1 10, Example.create 2 9, Example.create 3 5, Example.revoke 2,
    Example.delegate 4 3 20, .endBlock 10, .unrevoke [102], Example.unbond 3 3 5,
    Example.unbond 1 1 10]

theorem one_power_entry_each_example :
    ∃ st, Run step (Example.genesis 2) (Run.historyOf step (Example.genesis 2) changingPowers) st ∧
      OneEntryEach st.store := by
  obtain ⟨st, hrun, -⟩ := Run.of_leadsTo step (Example.genesis 2) changingPowers (fun _ => true)
    (by decide +kernel)
  exact ⟨st, hrun, one_power_entry_each (by decide) hrun (by decide +kernel)⟩

/-- With one place, validator `[2]` is not bonded.  Two unbondings from `[1]` take `4/5` of a share,
but no token, out of the bonded pool.  At the new exchange rate the nine shares of `[2]` are worth
less, so that the delegation to `[2]` looks for its old entry in the wrong place. -/
def movedExchangeRate : List Op :=
  [Example.create 1 10, Example.create 2 9, Example.unbond 1 1 (2 / 5),
    Example.unbond 1 1 (2 / 5), Example.delegate 3 2 5]

/-- After that, `[2]` has two entries. -/
theorem one_power_entry_each_fails :
    ∃ st, Run step (Example.genesis 1)
        (Run.historyOf step (Example.genesis 1) movedExchangeRate) st ∧
      ¬ OneEntryEach st.store := by
  obtain ⟨st, hrun, htest⟩ := Run.of_leadsTo step (Example.genesis 1) movedExchangeRate
    (fun st => decide (∃ v ∈ st.store.getValidator [2],
      ∃ e₁ ∈ st.store.validatorsByPower.toList, ∃ e₂ ∈ st.store.validatorsByPower.toList,
        e₁.2 = v.owner ∧ e₂.2 = v.owner ∧ e₁.1 ≠ e₂.1)) (by decide +kernel)
  obtain ⟨v, hv, ⟨key₁, a₁⟩, he₁, ⟨key₂, a₂⟩, he₂, rfl, rfl, hne⟩ := of_decide_eq_true htest
  refine ⟨st, hrun, fun hs => hne ?_⟩
  exact (hs.1 _ v hv).unique (KVStore.mem_toList.mp he₁) (KVStore.mem_toList.mp he₂)

end Tepleton.Stake
