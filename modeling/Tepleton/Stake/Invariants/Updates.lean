import Tepleton.Stake.Settle
import Tepleton.Stake.Invariants.PubKeys

/-!
# The validator set of the consensus engine

`EndBlocker` hands the queued updates to the consensus engine, which keeps its own set of public
keys and powers.  `Chain` is the staking state together with this set.  The two agree after every
block as long as each change of a bonded validator's power is queued and the queue, which is kept by
owner, never holds two entries for one key or loses one.

Changes that are not queued are those of a bonded validator whose power does not increase: a
delegator who unbonds and a slash are never reported.
-/

namespace Tepleton.Stake

open Lib

/-! ## The engine -/

/-- What the engine does with one update: power zero removes the key. -/
def applyUpdate (engine : KVStore PubKey ℤ) (update : WRSPValidator) : KVStore PubKey ℤ :=
  if update.power = 0 then engine.erase update.pubKey
  else engine.insert update.pubKey update.power

/-- The staking state and the validator set of the engine. -/
structure Chain where
  state : State
  engine : KVStore PubKey ℤ

/-- A step of the chain: at the end of a block the engine gets the updates. -/
def Chain.step (c : Chain) (op : Op) : Outcome Chain := do
  let state ← Stake.step c.state op
  match op with
  | .endBlock _ =>
    let (_, updates) ← endBlocker c.state.ctx c.state.store
    return ⟨state, updates.foldl applyUpdate c.engine⟩
  | _ => return ⟨state, c.engine⟩

/-- How the engine shows a power. -/
def shown (power : ℤ) : Option ℤ := if power = 0 then none else some power

theorem getElem?_applyUpdate (engine : KVStore PubKey ℤ) (update : WRSPValidator) (pk : PubKey) :
    (applyUpdate engine update)[pk]? =
      if update.pubKey = pk then shown update.power else engine[pk]? := by
  unfold applyUpdate shown
  split_ifs with hzero hpk hpk <;> simp_all [KVStore.getElem?_erase, KVStore.getElem?_insert]

theorem foldl_applyUpdate_of_forall_ne {updates : List WRSPValidator} {pk : PubKey}
    (h : ∀ u ∈ updates, u.pubKey ≠ pk) (engine : KVStore PubKey ℤ) :
    (updates.foldl applyUpdate engine)[pk]? = engine[pk]? := by
  induction updates generalizing engine with
  | nil => rfl
  | cons u updates ih =>
    rw [List.foldl_cons, ih (fun u' hu' => h u' (by simp [hu'])), getElem?_applyUpdate,
      if_neg (h u (by simp))]

theorem foldl_applyUpdate_of_mem {updates : List WRSPValidator} {u : WRSPValidator}
    (hu : u ∈ updates) (honly : ∀ u' ∈ updates, u'.pubKey = u.pubKey → u' = u)
    (engine : KVStore PubKey ℤ) :
    (updates.foldl applyUpdate engine)[u.pubKey]? = shown u.power := by
  induction updates generalizing engine with
  | nil => simp at hu
  | cons u' updates ih =>
    rw [List.foldl_cons]
    by_cases hlater : u ∈ updates
    · exact ih hlater (fun u'' hu'' => honly u'' (by simp [hu''])) _
    · obtain rfl : u = u' := by simpa [hlater] using hu
      rw [foldl_applyUpdate_of_forall_ne, getElem?_applyUpdate, if_pos rfl]
      intro u'' hu'' hkey
      rw [honly u'' (by simp [hu'']) hkey] at hu''
      exact hlater hu''

/-! ## Queue and engine together -/

/-- The power the engine should show for a validator, zero unless it is bonded. -/
def Validator.power (v : Validator) : ℤ := v.wrspValidator.power

/-- Once the queued updates are applied, the engine shows the power of every stored validator and
nothing else. -/
structure InSync (engine : KVStore PubKey ℤ) (s : Store) : Prop where
  unique : ∀ a b v w, s.getValidator a = some v → s.getValidator b = some w →
    v.pubKey = w.pubKey → a = b
  distinct : ∀ (a b : Address) u u', s.tendermintUpdates[a]? = some u →
    s.tendermintUpdates[b]? = some u' → u.pubKey = u'.pubKey → a = b
  own : ∀ (a b : Address) u v, s.tendermintUpdates[b]? = some u → s.getValidator a = some v →
    (u.pubKey = v.pubKey ↔ a = b)
  queued : ∀ (a : Address) u v, s.tendermintUpdates[a]? = some u → s.getValidator a = some v →
    u.power = v.power
  settled : ∀ (a : Address) v, s.getValidator a = some v → s.tendermintUpdates[a]? = none →
    engine[v.pubKey]? = shown v.power
  gone : ∀ (a : Address) u, s.tendermintUpdates[a]? = some u → s.getValidator a = none → u.power = 0
  foreign : ∀ pk, (∀ a v, s.getValidator a = some v → v.pubKey ≠ pk) →
    (∀ (a : Address) u, s.tendermintUpdates[a]? = some u → u.pubKey ≠ pk) → engine[pk]? = none

namespace InSync

variable {engine : KVStore PubKey ℤ} {s s' : Store} {w v : Validator}

/-- The key is the one of the validator stored under this owner, or of the update queued there. -/
def Owns (s : Store) (a : Address) (pk : PubKey) : Prop :=
  (∃ v, s.getValidator a = some v ∧ v.pubKey = pk) ∨
    ∃ u, s.tendermintUpdates[a]? = some u ∧ u.pubKey = pk

/-- What is stored under an owner and what is queued there agree. -/
structure Agree (engine : KVStore PubKey ℤ) (stored : Option Validator) (queue : Option WRSPValidator) :
    Prop where
  queued : ∀ u v, queue = some u → stored = some v → u.pubKey = v.pubKey ∧ u.power = v.power
  settled : ∀ v, stored = some v → queue = none → engine[v.pubKey]? = shown v.power
  gone : ∀ u, queue = some u → stored = none → u.power = 0

/-- Every owner is looked at alone, but for the keys, which no two of them share. -/
theorem iff_agree : InSync engine s ↔
    (∀ a b pk, Owns s a pk → Owns s b pk → a = b) ∧
      (∀ a : Address, Agree engine (s.getValidator a) s.tendermintUpdates[a]?) ∧
      ∀ pk, (∀ a, ¬ Owns s a pk) → engine[pk]? = none := by
  constructor
  · intro hs
    refine ⟨?_, fun a => ⟨fun u v hu hv => ?_, fun v => hs.settled a v, fun u => hs.gone a u⟩, ?_⟩
    · rintro a b pk (⟨v, hv, rfl⟩ | ⟨u, hu, rfl⟩) (⟨v', hv', heq⟩ | ⟨u', hu', heq⟩)
      · exact hs.unique a b v v' hv hv' heq.symm
      · exact (hs.own a b u' v hu' hv).mp heq
      · exact ((hs.own b a u v' hu hv').mp heq.symm).symm
      · exact hs.distinct a b u u' hu hu' heq.symm
    · exact ⟨(hs.own a a u v hu hv).mpr rfl, hs.queued a u v hu hv⟩
    · intro pk hfree
      exact hs.foreign pk (fun a v hv heq => hfree a (.inl ⟨v, hv, heq⟩))
        fun a u hu heq => hfree a (.inr ⟨u, hu, heq⟩)
  · rintro ⟨howns, hagree, hforeign⟩
    refine ⟨?_, ?_, ?_, ?_, fun a v => (hagree a).settled v, fun a u => (hagree a).gone u, ?_⟩
    · exact fun a b v w hv hw heq => howns a b v.pubKey (.inl ⟨v, hv, rfl⟩) (.inl ⟨w, hw, heq.symm⟩)
    · exact fun a b u u' hu hu' heq => howns a b u.pubKey (.inr ⟨u, hu, rfl⟩) (.inr ⟨u', hu', heq.symm⟩)
    · intro a b u v hu hv
      refine ⟨fun heq => howns a b v.pubKey (.inl ⟨v, hv, rfl⟩) (.inr ⟨u, hu, heq⟩), ?_⟩
      rintro rfl
      exact ((hagree a).queued u v hu hv).1
    · exact fun a u v hu hv => ((hagree a).queued u v hu hv).2
    · intro pk hstored hqueued
      refine hforeign pk fun a howned => ?_
      rcases howned with ⟨v, hv, heq⟩ | ⟨u, hu, heq⟩
      · exact hstored a v hv heq
      · exact hqueued a u hu heq

/-- Something changes under one owner, where keys are gained that nobody had and lost that the engine
does not have. -/
theorem change_owner {o : Address} (hs : InSync engine s)
    (hother : ∀ a : Address, a ≠ o → s'.getValidator a = s.getValidator a ∧
      s'.tendermintUpdates[a]? = s.tendermintUpdates[a]?)
    (hagree : Agree engine (s'.getValidator o) s'.tendermintUpdates[o]?)
    (hgained : ∀ pk, Owns s' o pk → Owns s o pk ∨ ∀ a, ¬ Owns s a pk)
    (hlost : ∀ pk, Owns s o pk → Owns s' o pk ∨ engine[pk]? = none) : InSync engine s' := by
  rw [iff_agree] at hs ⊢
  obtain ⟨howns, hagrees, hforeign⟩ := hs
  have hsame : ∀ {a pk}, a ≠ o → (Owns s' a pk ↔ Owns s a pk) := by
    intro a pk ha
    rw [Owns, Owns, (hother a ha).1, (hother a ha).2]
  -- the owner of a key that `o` has afterwards is `o`
  have honly : ∀ {b pk}, Owns s' o pk → Owns s' b pk → o = b := by
    intro b pk ho hb
    by_contra hne
    rw [hsame (Ne.symm hne)] at hb
    rcases hgained pk ho with ho | hfree
    · exact hne (howns o b pk ho hb)
    · exact hfree b hb
  refine ⟨fun a b pk ha hb => ?_, fun a => ?_, fun pk hfree => ?_⟩
  · rcases eq_or_ne a o with rfl | hao
    · exact honly ha hb
    · rcases eq_or_ne b o with rfl | hbo
      · exact (honly hb ha).symm
      · exact howns a b pk ((hsame hao).mp ha) ((hsame hbo).mp hb)
  · rcases eq_or_ne a o with rfl | hao
    · exact hagree
    · rw [(hother a hao).1, (hother a hao).2]
      exact hagrees a
  · by_cases ho : Owns s o pk
    · exact (hlost pk ho).resolve_left (hfree o)
    · refine hforeign pk fun a ha => ?_
      by_cases hao : a = o
      · exact ho (hao ▸ ha)
      · exact hfree a ((hsame hao).mpr ha)

/-- A record is replaced by one with the same key.  Its power is the same, or it is queued. -/
theorem replace (hs : InSync engine s) (hw : s.getValidator v.owner = some w)
    (hpubKey : v.pubKey = w.pubKey) (hvalidators : s'.validators = s.validators.insert v.owner v)
    (hqueue : (s'.tendermintUpdates = s.tendermintUpdates ∧ v.power = w.power) ∨
      s'.tendermintUpdates = s.tendermintUpdates.insert v.owner v.wrspValidator) :
    InSync engine s' := by
  have hagree := (iff_agree.mp hs).2.1 v.owner
  have hv : s'.getValidator v.owner = some v := by
    rw [Store.getValidator, hvalidators, KVStore.getElem?_insert_self]
  -- before and after, the owner has no other key than this one
  have hbefore : ∀ pk, Owns s v.owner pk → pk = v.pubKey := by
    rintro pk (⟨w', hw', rfl⟩ | ⟨u, hu, rfl⟩)
    · rw [hw] at hw'
      rw [hpubKey, Option.some.inj hw']
    · rw [hpubKey, (hagree.queued u w hu hw).1]
  have hafter : ∀ pk, Owns s' v.owner pk → pk = v.pubKey := by
    rintro pk (⟨v', hv', rfl⟩ | ⟨u, hu, rfl⟩)
    · rw [hv] at hv'
      rw [Option.some.inj hv']
    · rcases hqueue with ⟨hupdates, -⟩ | hupdates
      · exact hbefore _ (.inr ⟨u, hupdates ▸ hu, rfl⟩)
      · rw [hupdates, KVStore.getElem?_insert_self] at hu
        rw [← Option.some.inj hu]
        rfl
  refine hs.change_owner (o := v.owner) (fun a ha => ?_) ?_
    (fun pk howns => .inl (hafter pk howns ▸ .inl ⟨w, hw, hpubKey.symm⟩))
    (fun pk howns => .inl (hbefore pk howns ▸ .inl ⟨v, hv, rfl⟩))
  · rw [Store.getValidator, hvalidators, KVStore.getElem?_insert_of_ne _ _ (Ne.symm ha)]
    refine ⟨rfl, ?_⟩
    rcases hqueue with ⟨hupdates, -⟩ | hupdates
    · rw [hupdates]
    · rw [hupdates, KVStore.getElem?_insert_of_ne _ _ (Ne.symm ha)]
  · rw [hv]
    rcases hqueue with ⟨hupdates, hpower⟩ | hupdates
    · rw [hupdates]
      refine ⟨?_, ?_, by simp⟩
      · rintro u _ hu ⟨⟩
        rw [hpubKey, hpower]
        exact hagree.queued u w hu hw
      · rintro _ ⟨⟩ hnone
        rw [hpubKey, hpower]
        exact hagree.settled w hw hnone
    · rw [hupdates, KVStore.getElem?_insert_self]
      refine ⟨?_, by simp, by simp⟩
      rintro _ _ ⟨⟩ ⟨⟩
      exact ⟨rfl, rfl⟩

end InSync

variable {v : Validator}

theorem power_of_not_bonded (h : v.status ≠ .bonded) : v.power = 0 := by
  have hzero : v.poolShares.bonded = 0 := if_neg h
  rw [Validator.power, Validator.wrspValidator, hzero, roundInt64, evaluateBig_zero]
  rfl

theorem power_of_zero (h : v.poolShares.amount = 0) : v.power = 0 := by
  have hzero : v.poolShares.bonded = 0 := by
    rw [PoolShares.bonded, h]
    exact ite_self 0
  rw [Validator.power, Validator.wrspValidator, hzero, roundInt64, evaluateBig_zero]
  rfl

theorem wrspValidatorZero_eq (h : v.status ≠ .bonded) : v.wrspValidatorZero = v.wrspValidator := by
  have hpower := power_of_not_bonded h
  rw [Validator.wrspValidatorZero, ← hpower]
  rfl

theorem inSync_settling (engine : KVStore PubKey ℤ) : Settling (InSync engine) where
  ranks _ _ _ _ hs := { hs with }
  restamp {s v} height counter _ hv hs := by
    have hv' : s.getValidator (v.stamped height counter).owner = some v := hv
    exact hs.replace hv' rfl rfl (.inl ⟨rfl, rfl⟩)
  bond {s s' v v'} _ hv _ hbond hs := by
    obtain ⟨-, pool, hstatus, rfl⟩ := Store.bondValidator_eq_ok.mp hbond
    have hv' := (Validator.updateStatus_eq_ok hstatus).1
    have hstored : s.getValidator v'.owner = some v := by rw [hv']; exact hv
    exact hs.replace hstored (by rw [hv']) rfl (.inr rfl)
  unbond {s s' v v'} _ hv hunbond hs := by
    obtain ⟨-, pool, hstatus, rfl⟩ := Store.unbondValidator_eq_ok.mp hunbond
    have hv' := (Validator.updateStatus_eq_ok hstatus).1
    have hstored : s.getValidator v'.owner = some v := by rw [hv']; exact hv
    have hunbonded : v'.status ≠ .bonded := by rw [hv']; exact nofun
    refine hs.replace hstored (by rw [hv']) rfl (.inr ?_)
    rw [← wrspValidatorZero_eq hunbonded]
    rfl

/-! ## One step -/

/-- The update settles, and if it changes the power of a bonded validator, the validator is revoked
or its shares increase. -/
def Reports (ctx : Ctx) (s : Store) (v : Validator) : Prop :=
  s.Settles ctx v ∧ ∀ w ∈ s.getValidator v.owner, w.status = .bonded → v.revoked = false →
    w.poolShares.bonded < v.poolShares.bonded ∨ v.power = w.power

instance (ctx : Ctx) (s : Store) (v : Validator) : Decidable (Reports ctx s v) :=
  inferInstanceAs (Decidable (_ ∧ ∀ w ∈ _, _ → _ → _))

/-- No stored validator has the key of the new one, and the queue mentions it exactly under its
owner. -/
def NewToEngine (s : Store) (msg : MsgCreateValidator) : Prop :=
  PubKeyFree s msg.pubKey ∧ ∀ entry ∈ s.tendermintUpdates.toList,
    (entry.2.pubKey = msg.pubKey ↔ entry.1 = msg.validatorAddr)

instance (s : Store) (msg : MsgCreateValidator) : Decidable (NewToEngine s msg) :=
  inferInstanceAs (Decidable (_ ∧ ∀ entry ∈ _, _))

section Step

variable {engine : KVStore PubKey ℤ} {ctx : Ctx} {s s' : Store} {w v v' : Validator}

theorem InSync.updated (hs : InSync engine s) (hmax : 0 < s.params.maxValidators.val)
    (hkeyed : s.Keyed) (hw : s.getValidator v.owner = some w) (hpubKey : v.pubKey = w.pubKey)
    (hstatus : v.status = w.status) (hreports : Reports ctx s v)
    (h : s.updateValidator ctx v = .ok (s', v')) : InSync engine s' := by
  obtain ⟨s₁, v₁, key, hrerank, hend⟩ := Store.updateValidator_settle hmax hkeyed hw hreports.1 h
  have hkeyed₁ := (Store.rerank_touches hkeyed hw hrerank).1.keyed
  -- with the copy written, what remains is bonding and unbonding
  have hrest : ¬ Store.onlyIncreases (some w) v₁ → InSync engine (s₁.setValidator v₁) →
      InSync engine s' := by
    intro hnot hs₁
    rcases hend with ⟨hincreases, -⟩ | ⟨-, -, rfl⟩ | ⟨-, -, hsettle⟩
    · exact absurd hincreases hnot
    · exact hs₁
    · exact (inSync_settling engine).settle (hkeyed₁.setValidator v₁)
        (Store.getValidator_setValidator_self _ _) (hreports.1.rerank hw hrerank).2 hsettle hs₁
  obtain ⟨oldKey, -, -, hcase⟩ := Store.rerank_cases hw hrerank
  rcases hcase with ⟨hrevoked, -, s₀, v₀, hunbond, rfl, rfl⟩ | ⟨hrevoked, hbonded, rfl, rfl⟩ |
    ⟨hunbonded, rfl, rfl⟩
  · obtain ⟨-, pool, hstatus₀, rfl⟩ := Store.unbondValidator_eq_ok.mp hunbond
    have hv₀ := (Validator.updateStatus_eq_ok hstatus₀).1
    have howner : v₀.owner = v.owner := by rw [hv₀]
    have hunbonded : v₀.status ≠ .bonded := by rw [hv₀]; exact nofun
    have hstored : s.getValidator (v₀.stamped w.bondHeight w.bondIntraTxCounter).owner = some w := by
      rw [← hw, ← howner]
      rfl
    refine hrest ?_ (hs.replace hstored ?_ ?_ (.inr ?_))
    · have hrevoked₀ : v₀.revoked = true := by rw [hv₀]; exact hrevoked
      simp [Store.onlyIncreases, Validator.stamped, hrevoked₀]
    · rw [← hpubKey, hv₀]
      rfl
    · exact KVStore.insert_insert_self _ _ _ _
    · have hreported : v₀.wrspValidatorZero =
          (v₀.stamped w.bondHeight w.bondIntraTxCounter).wrspValidator := wrspValidatorZero_eq hunbonded
      rw [← hreported]
      rfl
  · have hstored : s.getValidator (v.stamped w.bondHeight w.bondIntraTxCounter).owner = some w := hw
    by_cases hincreases :
        Store.onlyIncreases (some w) (v.stamped w.bondHeight w.bondIntraTxCounter)
    · rcases hend with ⟨-, rfl⟩ | ⟨hnot, -⟩ | ⟨hnot, -⟩
      · exact hs.replace hstored hpubKey rfl (.inr rfl)
      · exact absurd hincreases hnot
      · exact absurd hincreases hnot
    · refine hrest hincreases (hs.replace hstored hpubKey rfl (.inl ⟨rfl, ?_⟩))
      rcases hreports.2 w hw hbonded hrevoked with hmore | hsame
      · refine absurd ⟨?_, hrevoked, hbonded⟩ hincreases
        exact decide_eq_true hmore
      · exact hsame
  · have hstored : s.getValidator (v.stamped ctx.blockHeight s.intraTxCounter).owner = some w := hw
    refine hrest ?_ (hs.replace hstored hpubKey rfl (.inl ⟨rfl, ?_⟩))
    · rintro ⟨-, -, hbonded⟩
      exact hunbonded hbonded
    · have hunbonded' : (v.stamped ctx.blockHeight s.intraTxCounter).status ≠ .bonded := by
        rw [← hstatus] at hunbonded
        exact hunbonded
      rw [power_of_not_bonded hunbonded', power_of_not_bonded hunbonded]

theorem InSync.changed {s₁ : Store} (hs : InSync engine s) (h : Changed s s₁ w v) :
    InSync engine s₁ := by
  rw [h.frame]
  exact { hs with }

theorem InSync.registered {s₀ : Store} {msg : MsgCreateValidator} (hs : InSync engine s)
    (hnew : NewToEngine s msg) (h : registerValidator s msg = .ok (s₀, w)) : InSync engine s₀ := by
  obtain ⟨hnone, -, hw, rfl⟩ := registerValidator_eq_ok h
  obtain ⟨hfree, hqueue⟩ := hnew
  have howner : w.owner = msg.validatorAddr := by rw [hw]; rfl
  have hpubKey : w.pubKey = msg.pubKey := by rw [hw]; rfl
  have hpower : w.power = 0 := power_of_not_bonded (by rw [hw]; exact nofun)
  rw [pubKeyFree_iff, ← hpubKey] at hfree
  have hqueue : ∀ (b : Address) u, s.tendermintUpdates[b]? = some u →
      (u.pubKey = w.pubKey ↔ b = w.owner) := by
    intro b u hu
    rw [hpubKey, howner]
    exact hqueue (b, u) (KVStore.mem_toList.mpr hu)
  have honly : ∀ a, Owns s a w.pubKey → a = w.owner := by
    rintro a (⟨v, hv, heq⟩ | ⟨u, hu, heq⟩)
    · exact absurd heq (hfree a v hv)
    · exact (hqueue a u hu).mp heq
  have hw₀ : Store.getValidator ((s.setValidator w).setValidatorByPubKeyIndex w) w.owner = some w :=
    Store.getValidator_setValidator_self s w
  have hagree := (iff_agree.mp hs).2.1 w.owner
  rw [howner, hnone, ← howner] at hagree
  refine hs.change_owner (o := w.owner) (fun a ha => ⟨?_, rfl⟩) ?_ ?_ ?_
  · exact (Store.getValidator_setValidator s w a).trans (if_neg (Ne.symm ha))
  · rw [hw₀]
    refine ⟨?_, ?_, by simp⟩
    · rintro u _ hu ⟨⟩
      rw [hpower]
      exact ⟨(hqueue _ u hu).mpr rfl, hagree.gone u hu rfl⟩
    · rintro _ ⟨⟩ hunqueued
      rw [hpower]
      refine hs.foreign _ hfree fun b q hq hkey => ?_
      obtain rfl := (hqueue b q hq).mp hkey
      exact absurd (hunqueued.symm.trans hq) nofun
  · rintro pk (⟨v, hv, rfl⟩ | howned)
    · obtain rfl := Option.some.inj (hw₀.symm.trans hv)
      by_cases howned : Owns s w.owner w.pubKey
      · exact .inl howned
      · exact .inr fun a ha => howned (honly a ha ▸ ha)
    · exact .inl (.inr howned)
  · rintro pk (⟨v, hv, -⟩ | howned)
    · rw [howner, hnone] at hv
      cases hv
    · exact .inl (.inr howned)

theorem InSync.removed {a : Address} (hs : InSync engine s) (hv : s.getValidator a = some v)
    (hpower : v.power = 0) (h : s.removeValidator a = .ok s') : InSync engine s' := by
  obtain ⟨key, -, rfl⟩ := removeValidator_eq_ok hv h
  have hagree := (iff_agree.mp hs).2.1 a
  have hbefore : ∀ pk, Owns s a pk → pk = v.pubKey := by
    rintro pk (⟨v', hv', rfl⟩ | ⟨u, hu, rfl⟩)
    · rw [Option.some.inj (hv.symm.trans hv')]
    · exact (hagree.queued u v hu hv).1
  have hnone : (s.validators.erase a)[a]? = none := by rw [KVStore.getElem?_erase, if_pos rfl]
  refine hs.change_owner (o := a) (fun b hb => ⟨?_, ?_⟩) ?_ ?_ ?_
  · exact KVStore.getElem?_erase_of_ne _ (Ne.symm hb)
  · simp only
    split_ifs
    · rfl
    · exact KVStore.getElem?_insert_of_ne _ _ (Ne.symm hb)
  all_goals simp only [Owns, Store.getValidator, hnone]
  · refine ⟨by simp, by simp, fun u hu _ => ?_⟩
    split_ifs at hu
    · rw [(hagree.queued u v hu hv).2, hpower]
    · rw [KVStore.getElem?_insert_self] at hu
      cases hu
      rfl
  · rintro pk (⟨_, h, -⟩ | ⟨u, hu, rfl⟩)
    · cases h
    · split_ifs at hu
      · exact .inl (.inr ⟨u, hu, rfl⟩)
      · rw [KVStore.getElem?_insert_self] at hu
        cases hu
        exact .inl (.inl ⟨v, hv, rfl⟩)
  · intro pk howned
    obtain rfl := hbefore pk howned
    split_ifs
    · cases hq : s.tendermintUpdates[a]? with
      | none =>
        rw [hagree.settled v hv hq, hpower]
        exact .inr rfl
      | some u => exact .inl (.inr ⟨u, rfl, (hagree.queued u v hq hv).1⟩)
    · exact .inl (.inr ⟨_, KVStore.getElem?_insert_self _ _ _, rfl⟩)

/-- At the end of the block the engine catches up. -/
theorem InSync.endBlock (hs : InSync engine s) {looseTokens : ℤ} {inflation : ℚ} :
    InSync (s.getTendermintUpdates.foldl applyUpdate engine) { s with
      pool := { s.pool with looseTokens, inflation }
      intraTxCounter := 0, tendermintUpdates := ∅ } := by
  have hmem : ∀ {q}, q ∈ s.getTendermintUpdates ↔ ∃ a : Address, s.tendermintUpdates[a]? = some q := by
    intro q
    simp only [Store.getTendermintUpdates, List.mem_map, Prod.exists, KVStore.mem_toList]
    simp
  -- a queued update is the only one of its key
  have happlied : ∀ (a : Address) q, s.tendermintUpdates[a]? = some q →
      (s.getTendermintUpdates.foldl applyUpdate engine)[q.pubKey]? = shown q.power := by
    intro a q hq
    refine foldl_applyUpdate_of_mem (hmem.mpr ⟨a, hq⟩) (fun q' hq' hkey => ?_) engine
    obtain ⟨b, hb⟩ := hmem.mp hq'
    obtain rfl := hs.distinct b a q' q hb hq hkey
    exact Option.some.inj (hb.symm.trans hq)
  refine ⟨hs.unique, ?_, ?_, ?_, ?_, ?_, ?_⟩
  · intro a b u u' hu
    simp at hu
  · intro a b u v hu
    simp at hu
  · intro a u v hu
    simp at hu
  · intro a v hv _
    cases hq : s.tendermintUpdates[a]? with
    | some q =>
      have hkey : q.pubKey = v.pubKey := (hs.own a a q v hq hv).mpr rfl
      rw [← hkey, happlied a q hq, hs.queued a q v hq hv]
    | none =>
      rw [foldl_applyUpdate_of_forall_ne, hs.settled a v hv hq]
      intro q' hq' hkey
      obtain ⟨b, hb⟩ := hmem.mp hq'
      obtain rfl := (hs.own a b q' v hb hv).mp hkey
      rw [hq] at hb
      cases hb
  · intro a u hu
    simp at hu
  · intro pk hstored _
    by_cases hqueued : ∃ q ∈ s.getTendermintUpdates, q.pubKey = pk
    · obtain ⟨q, hq, rfl⟩ := hqueued
      obtain ⟨a, ha⟩ := hmem.mp hq
      rw [happlied a q ha]
      cases hv : s.getValidator a with
      | none => rw [hs.gone a q ha hv]; rfl
      | some v => exact absurd ((hs.own a a q v ha hv).mpr rfl).symm (hstored a v hv)
    · push Not at hqueued
      rw [foldl_applyUpdate_of_forall_ne hqueued]
      exact hs.foreign pk hstored fun a q hq => hqueued q (hmem.mpr ⟨a, hq⟩)

end Step

/-! ## Runs -/

theorem inSync_maintained (engine : KVStore PubKey ℤ) :
    Maintains (fun _ s => InSync engine s ∧ 0 < s.params.maxValidators.val)
      (fun _ s v => InSync engine s ∧ 0 < s.params.maxValidators.val ∧
        ∀ w, s.getValidator v.owner = some w → v.pubKey = w.pubKey ∧ v.status = w.status)
      Reports NewToEngine where
  register _ hs hnew hregister hchanged := by
    refine ⟨(hs.1.registered hnew hregister).changed hchanged, ?_, fun w hw => ?_⟩
    · obtain ⟨-, -, -, rfl⟩ := registerValidator_eq_ok hregister
      rw [hchanged.params]
      exact hs.2
    · rw [hchanged.found] at hw
      exact Option.some.inj hw ▸ ⟨hchanged.pubKey, hchanged.status⟩
  change _ hs hchanged := by
    refine ⟨hs.1.changed hchanged, by rw [hchanged.params]; exact hs.2, fun w hw => ?_⟩
    rw [hchanged.found] at hw
    exact Option.some.inj hw ▸ ⟨hchanged.pubKey, hchanged.status⟩
  update hwell hJ hreports hw hupdate := by
    obtain ⟨hs, hmax, hsame⟩ := hJ
    obtain ⟨hpubKey, hstatus⟩ := hsame _ hw
    refine ⟨hs.updated hmax hwell.validators hw hpubKey hstatus hreports hupdate, ?_⟩
    rw [(Store.updateValidator_updated hwell.validators hw hupdate).touches.params]
    exact hmax
  remove hwell hJ hreports hw hupdate _ hamount hremove := by
    obtain ⟨hs, hmax, hsame⟩ := hJ
    obtain ⟨hpubKey, hstatus⟩ := hsame _ hw
    have hupdated := Store.updateValidator_updated hwell.validators hw hupdate
    have hs' := hs.updated hmax hwell.validators hw hpubKey hstatus hreports hupdate
    have hpower := power_of_zero (Store.updateValidator_zero hw hamount hupdate)
    refine ⟨hs'.removed hupdated.self hpower hremove, ?_⟩
    obtain ⟨key, -, rfl⟩ := removeValidator_eq_ok hupdated.self hremove
    show 0 < _
    rw [hupdated.touches.params]
    exact hmax
  records _ _ _ _ _ _ hs := ⟨{ hs.1 with }, hs.2⟩

theorem Chain.step_cases {c c' : Chain} {op : Op} (h : c.step op = .ok c') :
    Stake.step c.state op = .ok c'.state ∧
      ((∃ blockTime, op = .endBlock blockTime ∧
          c'.engine = c.state.store.getTendermintUpdates.foldl applyUpdate c.engine) ∨
        (∀ blockTime, op ≠ .endBlock blockTime) ∧ c'.engine = c.engine) := by
  simp only [Chain.step, bind_eq_ok] at h
  obtain ⟨state, hstate, h⟩ := h
  cases op with
  | endBlock blockTime =>
    simp only [bind_eq_ok, pure_eq_ok, Prod.exists] at h
    obtain ⟨s', updates, hend, rfl⟩ := h
    obtain ⟨rfl, -⟩ := endBlocker_eq_ok hend
    exact ⟨hstate, .inl ⟨blockTime, rfl, rfl⟩⟩
  | createValidator _ | editValidator _ | delegate _ | beginUnbonding _ | completeUnbonding _
  | beginRedelegate _ | completeRedelegate _ | revoke _ | unrevoke _ | slash _ _ _ _ =>
    cases h
    exact ⟨hstate, .inr ⟨nofun, rfl⟩⟩

/-- The queued updates bring the engine up to date, in a well-formed store. -/
def Chain.InSync (c : Chain) : Prop :=
  c.state.store.WellFormed ∧ Stake.InSync c.engine c.state.store ∧
    0 < c.state.store.params.maxValidators.val

theorem Chain.InSync.step {c c' : Chain} {op : Op} (hc : c.InSync)
    (horderly : Orderly Reports NewToEngine c.state op) (h : c.step op = .ok c') : c'.InSync := by
  obtain ⟨hstep, hcase⟩ := Chain.step_cases h
  rcases hcase with ⟨blockTime, rfl, hengine⟩ | ⟨hnot, hengine⟩
  · have hwell := step_wellFormed hc.1 horderly.1 hstep
    obtain ⟨-, looseTokens, inflation, hstate⟩ := step_endBlock_eq_ok hstep
    refine ⟨hwell, ?_, ?_⟩ <;> rw [hstate]
    · rw [hengine]
      exact hc.2.1.endBlock
    · exact hc.2.2
  · rcases Stake.step_cases hstep with ⟨blockTime, hop⟩ | ⟨hctx, hdeliver⟩
    · exact absurd hop (hnot blockTime)
    · obtain ⟨hwell, hs⟩ := (inSync_maintained c.engine).deliver hc.1 hc.2 horderly.1 horderly.2.1
        horderly.2.2 hdeliver
      exact ⟨hwell, by rw [hengine]; exact hs.1, hs.2⟩

/-- With nothing queued, the engine shows the bonded validators with positive power. -/
theorem InSync.engine_iff {engine : KVStore PubKey ℤ} {s : Store} (hs : InSync engine s)
    (hqueue : s.tendermintUpdates = ∅)
    (hnonneg : ∀ a v, s.getValidator a = some v → v.status = .bonded →
      0 ≤ roundInt64 v.poolShares.amount) (pk : PubKey) (p : ℤ) :
    engine[pk]? = some p ↔ ∃ a v, s.getValidator a = some v ∧ v.pubKey = pk ∧
      v.status = .bonded ∧ 0 < p ∧ p = roundInt64 v.poolShares.amount := by
  have hsettled : ∀ a v, s.getValidator a = some v → engine[v.pubKey]? = shown v.power :=
    fun a v hv => hs.settled a v hv (by simp [hqueue])
  have hbonded : ∀ {v : Validator}, v.status = .bonded → v.power = roundInt64 v.poolShares.amount :=
    fun h => congrArg roundInt64 (if_pos h)
  constructor
  · intro hp
    by_cases hstored : ∃ a v, s.getValidator a = some v ∧ v.pubKey = pk
    · obtain ⟨a, v, hv, rfl⟩ := hstored
      rw [hsettled a v hv, shown] at hp
      split_ifs at hp with hzero
      obtain rfl := Option.some.inj hp
      have hstatus : v.status = .bonded := by
        by_contra hnot
        exact hzero (power_of_not_bonded hnot)
      rw [hbonded hstatus] at hzero ⊢
      exact ⟨a, v, hv, rfl, hstatus, lt_of_le_of_ne (hnonneg a v hv hstatus) (Ne.symm hzero), rfl⟩
    · have hnone := hs.foreign pk (fun a v hv hpk => hstored ⟨a, v, hv, hpk⟩) (by simp [hqueue])
      rw [hnone] at hp
      cases hp
  · rintro ⟨a, v, hv, rfl, hstatus, hpos, rfl⟩
    rw [hsettled a v hv, hbonded hstatus, shown, if_neg hpos.ne']

/-- Take a run of the chain from an empty store and engine in which all updates are reported and
new keys are new to the engine, and then the end of a block at which no bonded validator has a
negative power.  After it, the engine has exactly the keys of the bonded validators with a positive
rounded power, each with this power. -/
theorem engine_matches_bonded {params : Params} {pool : Pool} {accounts : Auth.AccountStore}
    {ctx : Ctx} {history : List (Chain × Op)} {c c' : Chain} {blockTime : ℤ}
    (hplaces : 0 < params.maxValidators.val)
    (hrun : Run Chain.step ⟨⟨ctx, emptyStore params pool accounts⟩, ∅⟩ history c)
    (hreported : Run.Meets (fun c op => Orderly Reports NewToEngine c.state op) history)
    (hnonneg : ∀ a v, c.state.store.getValidator a = some v → v.status = .bonded →
      0 ≤ roundInt64 v.poolShares.amount)
    (hend : c.step (.endBlock blockTime) = .ok c') (pk : PubKey) (p : ℤ) :
    c'.engine[pk]? = some p ↔ ∃ a v, c'.state.store.getValidator a = some v ∧ v.pubKey = pk ∧
      v.status = .bonded ∧ 0 < p ∧ p = roundInt64 v.poolShares.amount := by
  have hempty : Chain.InSync ⟨⟨ctx, emptyStore params pool accounts⟩, ∅⟩ := by
    refine ⟨emptyStore_wellFormed _ _ _, ⟨?_, ?_, ?_, ?_, ?_, ?_, ?_⟩, hplaces⟩ <;>
      simp [emptyStore, Store.getValidator]
  have hsync : c.InSync := Run.invariant Chain.InSync hempty (fun hc hop h => hc.step hop h) hrun
    hreported
  have hquiet : Orderly Reports NewToEngine c.state (.endBlock blockTime) := ⟨trivial, trivial, trivial⟩
  have hsync' := hsync.step hquiet hend
  obtain ⟨-, looseTokens, inflation, hstate⟩ := step_endBlock_eq_ok (Chain.step_cases hend).1
  refine hsync'.2.1.engine_iff (by rw [hstate]) (fun a v hv => ?_) pk p
  rw [hstate] at hv
  exact hnonneg a v hv

/-- Validators enter, gain power, are revoked and leave over two blocks. -/
def reportedChanges : List Op :=
  [Example.create 1 10, Example.create 2 5, .endBlock 10, Example.create 3 3, Example.delegate 4 3 9,
    Example.revoke 1, Example.unbond 2 2 5]

theorem engine_matches_bonded_example :
    ∃ c c', Run Chain.step ⟨Example.genesis 2, ∅⟩
        (Run.historyOf Chain.step ⟨Example.genesis 2, ∅⟩ reportedChanges) c ∧
      c.step (.endBlock 20) = .ok c' ∧ ∀ pk p, c'.engine[pk]? = some p ↔
        ∃ a v, c'.state.store.getValidator a = some v ∧ v.pubKey = pk ∧ v.status = .bonded ∧
          0 < p ∧ p = roundInt64 v.poolShares.amount := by
  obtain ⟨c, hrun, htest⟩ := Run.of_leadsTo Chain.step ⟨Example.genesis 2, ∅⟩ reportedChanges
    (fun c => (c.step (.endBlock 20)).isOk && decide (∀ entry ∈ c.state.store.validators.toList,
      entry.2.status = .bonded → 0 ≤ roundInt64 entry.2.poolShares.amount)) (by decide +kernel)
  rw [Bool.and_eq_true, decide_eq_true_eq] at htest
  cases hend : c.step (.endBlock 20) with
  | error fault =>
    rw [hend] at htest
    exact absurd htest.1 nofun
  | ok c' =>
    have hnonneg : ∀ a v, c.state.store.getValidator a = some v → v.status = .bonded →
        0 ≤ roundInt64 v.poolShares.amount :=
      fun a v hv => htest.2 (a, v) (KVStore.mem_toList.mpr hv)
    exact ⟨c, c', hrun, hend,
      engine_matches_bonded (by decide) hrun (by decide +kernel) hnonneg hend⟩

/-- The only validator loses three of its ten tokens. -/
def unreportedLoss : List Op :=
  [Example.create 1 10, .endBlock 10, Example.unbond 1 1 3, .endBlock 20]

/-- After that, the engine still gives it a power of ten. -/
theorem engine_matches_bonded_fails :
    ∃ c, Run Chain.step ⟨Example.genesis 2, ∅⟩
        (Run.historyOf Chain.step ⟨Example.genesis 2, ∅⟩ unreportedLoss) c ∧
      c.engine[([101] : PubKey)]? = some 10 ∧
      ∀ a v, c.state.store.getValidator a = some v → v.pubKey = [101] →
        roundInt64 v.poolShares.amount = 7 := by
  obtain ⟨c, hrun, htest⟩ := Run.of_leadsTo Chain.step ⟨Example.genesis 2, ∅⟩ unreportedLoss
    (fun c => decide (c.engine[([101] : PubKey)]? = some 10 ∧
      ∀ entry ∈ c.state.store.validators.toList, entry.2.pubKey = [101] →
        roundInt64 entry.2.poolShares.amount = 7)) (by decide +kernel)
  obtain ⟨hengine, hpower⟩ := of_decide_eq_true htest
  exact ⟨c, hrun, hengine, fun a v hv => hpower (a, v) (KVStore.mem_toList.mpr hv)⟩

end Tepleton.Stake
