import Tepleton.Stake.Settle
import Tepleton.Stake.Steps

/-!
# Status and bonded index

A record says whether its validator is bonded, and the bonded index lists the bonded validators.
`bondValidator` and `unbondValidator` write both, so that they agree after every update that
settles.

How many validators are bonded is another matter.  Whoever is met by the walk and is not bonded is
bonded, and whatever the number of those, at most one validator is kicked.  `Fits` says that there
are places for them.
-/

namespace Tepleton.Stake

open Lib

/-- The bonded validators are those in the bonded index, and no validator is unbonding. -/
structure StatusAgrees (s : Store) : Prop where
  bonded : ∀ a, (∃ v, s.getValidator a = some v ∧ v.status = .bonded) ↔
    s.validatorsBonded[a]? = some a
  self : ∀ k a : Address, s.validatorsBonded[k]? = some a → a = k
  decided : ∀ a v, s.getValidator a = some v → v.status ≠ .unbonding

namespace StatusAgrees

variable {s s' : Store} {v v' : Validator}

theorem write (hs : StatusAgrees s)
    (hvalidators : s'.validators = s.validators.insert v.owner v) (hdecided : v.status ≠ .unbonding)
    (hself : v.status = .bonded ↔ s'.validatorsBonded[v.owner]? = some v.owner)
    (hindex : ∀ k a : Address, s'.validatorsBonded[k]? = some a → a = k)
    (hothers : ∀ a, a ≠ v.owner → s'.validatorsBonded[a]? = s.validatorsBonded[a]?) :
    StatusAgrees s' := by
  have hget : ∀ a, s'.getValidator a = if v.owner = a then some v else s.getValidator a := by
    intro a
    rw [Store.getValidator, hvalidators, KVStore.getElem?_insert]
    rfl
  refine ⟨?_, hindex, ?_⟩
  · intro a
    rw [hget]
    split_ifs with ha
    · rw [← ha, ← hself]
      simp
    · rw [hothers a (Ne.symm ha), ← hs.bonded]
  · intro a u hu
    rw [hget] at hu
    split_ifs at hu
    · exact Option.some.inj hu ▸ hdecided
    · exact hs.decided a u hu

theorem setValidator (hs : StatusAgrees s) (hv : s.getValidator v.owner = some v)
    (howner : v'.owner = v.owner) (hstatus : v'.status = v.status) :
    StatusAgrees (s.setValidator v') := by
  refine hs.write rfl ?_ ?_ hs.self fun _ _ => rfl
  · rw [hstatus]
    exact hs.decided _ v hv
  · have hbonded := hs.bonded v.owner
    rw [hstatus, howner]
    show _ ↔ s.validatorsBonded[v.owner]? = some v.owner
    simpa [hv] using hbonded

theorem bondedWith (hs : StatusAgrees s) (hstatus : v.status = .bonded) (pool : Pool) :
    StatusAgrees (s.bondedWith v pool) := by
  have hindex : ∀ k : Address, (s.bondedWith v pool).validatorsBonded[k]? =
      if v.owner = k then some v.owner else s.validatorsBonded[k]? :=
    fun k => KVStore.getElem?_insert _ _ _ _
  refine hs.write rfl (by rw [hstatus]; exact nofun) ?_ ?_ ?_
  · rw [hindex, if_pos rfl]
    simp [hstatus]
  · intro k a ha
    rw [hindex] at ha
    split_ifs at ha with hk
    · rw [← hk, ← Option.some.inj ha]
    · exact hs.self k a ha
  · intro a ha
    rw [hindex, if_neg (Ne.symm ha)]

theorem unbondedWith (hs : StatusAgrees s) (hstatus : v.status = .unbonded) (pool : Pool) :
    StatusAgrees (s.unbondedWith v pool) := by
  have hindex : ∀ k : Address, (s.unbondedWith v pool).validatorsBonded[k]? =
      if v.owner = k then none else s.validatorsBonded[k]? :=
    fun k => KVStore.getElem?_erase _ _ _
  refine hs.write rfl (by rw [hstatus]; exact nofun) ?_ ?_ ?_
  · rw [hindex, if_pos rfl, hstatus]
    simp
  · intro k a ha
    rw [hindex] at ha
    split_ifs at ha
    exact hs.self k a ha
  · intro a ha
    rw [hindex, if_neg (Ne.symm ha)]

end StatusAgrees

variable {v v' : Validator} {s s' : Store} {w : Validator}

theorem status_eq_of_updateStatus {pool pool' : Pool} {status : BondStatus}
    (h : v.updateStatus pool status = .ok (v', pool')) : v'.status = status := by
  rw [(Validator.updateStatus_eq_ok h).1]
  rfl

theorem statusAgrees_settling : Settling StatusAgrees where
  ranks _ _ _ _ hs := { hs with }
  restamp _ _ _ hv hs := hs.setValidator hv rfl rfl
  bond _ _ _ hbond hs := by
    obtain ⟨-, pool, hstatus, rfl⟩ := Store.bondValidator_eq_ok.mp hbond
    exact hs.bondedWith (status_eq_of_updateStatus hstatus) pool
  unbond _ _ hunbond hs := by
    obtain ⟨-, pool, hstatus, rfl⟩ := Store.unbondValidator_eq_ok.mp hunbond
    exact hs.unbondedWith (status_eq_of_updateStatus hstatus) pool

/-! ## How many are bonded -/

/-- Those who are bonded and those who are about to be find a place: one is freed when the
validator is itself unbonded because it is revoked, or by the kick of the cliff. -/
def Fits (ctx : Ctx) (s : Store) (v : Validator) : Prop :=
  ∀ w ∈ s.getValidator v.owner,
    Returns (fun places =>
        (∃ a ∈ places, s.Entering v a) →
          s.validatorsBonded.size + (places.filter fun a => s.Entering v a).length ≤
            s.params.maxValidators +
              if (v.revoked = true ∧ w.status = .bonded) ∨ s.validatorCliff ≠ none then 1 else 0)
      (s.places ctx w v)

instance (ctx : Ctx) (s : Store) (v : Validator) : Decidable (Fits ctx s v) :=
  inferInstanceAs (Decidable (∀ w ∈ _, Returns _ _))

theorem size_unbondValidator (hs : StatusAgrees s) (hv : s.getValidator v.owner = some v)
    (h : s.unbondValidator v = .ok (s', v')) :
    s'.validatorsBonded.size + 1 = s.validatorsBonded.size := by
  obtain ⟨hnot, pool, hstatus, rfl⟩ := Store.unbondValidator_eq_ok.mp h
  have howner : v'.owner = v.owner := by rw [(Validator.updateStatus_eq_ok hstatus).1]
  have hbonded : v.status = .bonded := by
    have hdecided := hs.decided _ v hv
    cases hv : v.status <;> simp_all
  have hentry := (hs.bonded v.owner).mp ⟨v, hv, hbonded⟩
  rw [← howner] at hentry
  exact KVStore.size_erase_of_some hentry

/-- The walk bonds no more validators than would enter at its start. -/
theorem size_foldlM_enter {new : Validator} {owners : List Address} {t t' : Store}
    (h : owners.foldlM (Store.enter new) t = .ok t') :
    t'.validatorsBonded.size ≤
      t.validatorsBonded.size + (owners.filter fun a => t.Entering new a).length := by
  induction owners generalizing t with
  | nil =>
    cases h
    simp
  | cons a owners ih =>
    rw [List.foldlM_cons, bind_eq_ok] at h
    obtain ⟨t₁, henter, h⟩ := h
    have hrest := ih h
    obtain ⟨w, hw, ⟨henters, w', hbond⟩ | ⟨-, -, hsame⟩⟩ := Store.enter_eq_ok.mp henter
    · obtain ⟨-, pool, hstatus, rfl⟩ := Store.bondValidator_eq_ok.mp hbond
      have hsize : (t.bondedWith w' pool).validatorsBonded.size ≤ t.validatorsBonded.size + 1 :=
        KVStore.size_insert_le _ _ _
      -- whoever is bonded does not enter again
      have hfewer : (owners.filter fun b => (t.bondedWith w' pool).Entering new b).length ≤
          (owners.filter fun b => t.Entering new b).length := by
        refine (List.monotone_filter_right owners fun b hb => ?_).length_le
        rw [decide_eq_true_eq, Store.entering_iff] at hb ⊢
        obtain ⟨u, hu, huenters⟩ := hb
        refine ⟨u, ?_, huenters⟩
        rw [Store.current_eq_ok] at hu ⊢
        refine hu.imp_right fun ⟨hb, hstored⟩ => ⟨hb, ?_⟩
        rw [Store.getValidator_bondedWith] at hstored
        split_ifs at hstored
        · obtain rfl := Option.some.inj hstored
          exact absurd (status_eq_of_updateStatus hstatus) huenters.1
        · exact hstored
      have hentering : t.Entering new a := Store.entering_iff.mpr ⟨w, hw, henters⟩
      rw [List.filter_cons_of_pos (by simpa using hentering), List.length_cons]
      omega
    · rw [hsame] at hrest
      have hsub : (owners.filter fun b => t.Entering new b).length ≤
          ((a :: owners).filter fun b => t.Entering new b).length :=
        ((List.sublist_cons_self a owners).filter _).length_le
      omega

/-- What is bonded after the walk and the kick fits if it did so before. -/
theorem size_settle {t t' : Store} {new : Validator} {max : ℕ} (hkeyed : t.Keyed)
    (hs : StatusAgrees t) (hstored : t.getValidator new.owner = some new)
    (hcount : new.Enters → t.visited.count new.owner ≤ 1) (hmax : t.validatorsBonded.size ≤ max)
    (hfits : t.SomeoneEnters new →
      t.validatorsBonded.size + (t.visited.filter fun a => t.Entering new a).length ≤
        max + if t.validatorCliff = none then 0 else 1)
    (h : t.settle new = .ok t') : t'.validatorsBonded.size ≤ max := by
  simp only [Store.settle, bind_eq_ok] at h
  obtain ⟨t₁, hfold, t₂, hrefresh, hkick⟩ := h
  have hsize := size_foldlM_enter hfold
  obtain ⟨hkeyed₁, hs₁⟩ := statusAgrees_settling.foldlM_enter hkeyed
    (fun hnew => ⟨hcount hnew, fun _ => hstored⟩) hfold hs
  obtain ⟨hs₂, hvalidators⟩ := statusAgrees_settling.refreshCliff hrefresh hs₁
  have hsize₂ : t₂.validatorsBonded = t₁.validatorsBonded := by
    unfold Store.refreshCliff at hrefresh
    split_ifs at hrefresh
    · simp only [bind_eq_ok, Store.setCliffValidator_eq_ok] at hrefresh
      obtain ⟨v, -, key, -, rfl⟩ := hrefresh
      rfl
    · cases hrefresh
      rfl
  rw [← hsize₂] at hsize
  by_cases hsomeone : t.SomeoneEnters new
  · have hfits := hfits hsomeone
    rw [if_pos hsomeone] at hkick
    rcases Store.kick_eq_ok.mp hkick with ⟨hcliff, rfl⟩ | ⟨addr, v, v', hcliff, hv, hunbond⟩
    · rw [if_pos hcliff] at hfits
      omega
    · have hkeyed₂ : t₂.Keyed := by
        intro a u hu
        rw [Store.getValidator, hvalidators] at hu
        exact hkeyed₁ a u hu
      have hfreed := size_unbondValidator hs₂ (hkeyed₂.stored hv) hunbond
      rw [if_neg (by simp [hcliff])] at hfits
      omega
  · have hnobody : (t.visited.filter fun a => t.Entering new a) = [] := by
      rw [List.filter_eq_nil_iff]
      intro a ha hentering
      exact hsomeone ⟨a, ha, by simpa using hentering⟩
    rw [if_neg hsomeone] at hkick
    cases hkick
    rw [hnobody, List.length_nil] at hsize
    omega

theorem size_rerank {ctx : Ctx} {s₁ : Store} {v₁ : Validator} {key : Bytes}
    (hw : s.getValidator v.owner = some w) (hs : StatusAgrees (s.setValidator v))
    (h : s.rerank ctx v = .ok (s₁, v₁, key)) :
    s₁.validatorsBonded.size + (if v.revoked = true ∧ w.status = .bonded then 1 else 0) =
      s.validatorsBonded.size := by
  obtain ⟨oldKey, -, -, hcase⟩ := Store.rerank_cases hw h
  rcases hcase with ⟨hrevoked, hbonded, s₀, v₀, hunbond, rfl, rfl⟩ | ⟨hrevoked, -, rfl, rfl⟩ |
    ⟨hbonded, rfl, rfl⟩
  · obtain ⟨hnot, pool, hstatus, rfl⟩ := Store.unbondValidator_eq_ok.mp hunbond
    have hfreed := size_unbondValidator hs (Store.getValidator_setValidator_self _ _)
      (Store.unbondValidator_eq_ok.mpr ⟨hnot, pool, hstatus, rfl⟩)
    rw [if_pos ⟨hrevoked, hbonded⟩]
    exact hfreed
  · rw [if_neg (by simp [hrevoked])]
    rfl
  · rw [if_neg (by simp [hbonded])]
    rfl

theorem size_updateValidator {ctx : Ctx} (hmax : 0 < s.params.maxValidators.val) (hkeyed : s.Keyed)
    (hw : s.getValidator v.owner = some w) (hsettles : s.Settles ctx v) (hfits : Fits ctx s v)
    (hs : StatusAgrees (s.setValidator v))
    (hsize : s.validatorsBonded.size ≤ s.params.maxValidators)
    (h : s.updateValidator ctx v = .ok (s', v')) :
    s'.validatorsBonded.size ≤ s.params.maxValidators := by
  obtain ⟨s₁, v₁, key, hrerank, hcase⟩ := Store.updateValidator_settle hmax hkeyed hw hsettles h
  have hsize₁ := size_rerank hw hs hrerank
  rcases hcase with ⟨-, rfl⟩ | ⟨-, -, rfl⟩ | ⟨-, -, hsettle⟩
  · show s₁.validatorsBonded.size ≤ _
    omega
  · show s₁.validatorsBonded.size ≤ _
    omega
  · have hkeyed₁ := (Store.rerank_touches hkeyed hw hrerank).1.keyed
    obtain ⟨-, hplaces, hcliff, -⟩ := Store.rerank_places hw hrerank
    refine size_settle (hkeyed₁.setValidator v₁) (statusAgrees_settling.rerank hkeyed hw hrerank hs)
      (Store.getValidator_setValidator_self _ _) (hsettles.rerank hw hrerank).2
      (show s₁.validatorsBonded.size ≤ _ by omega) ?_ hsettle
    rintro ⟨a, ha, hentering⟩
    have hroom := (hfits w hw).of_ok hplaces ⟨a, ha, (Store.rerank_entering hw hrerank a).mp hentering⟩
    have hsame : ((s₁.setValidator v₁).visited.filter fun a =>
        (s₁.setValidator v₁).Entering v₁ a) = s₁.visited.filter fun a => s.Entering v a :=
      List.filter_congr fun b _ => decide_eq_decide.mpr (Store.rerank_entering hw hrerank b)
    rw [hsame]
    show s₁.validatorsBonded.size + _ ≤ _ + if s₁.validatorCliff = none then 0 else 1
    rw [hcliff, Store.cliffBefore]
    by_cases hrevoked : v.revoked = true ∧ w.status = .bonded
    · rw [if_pos (.inl hrevoked)] at hroom
      rw [if_pos hrevoked] at hsize₁ ⊢
      rw [if_pos rfl]
      omega
    · rw [if_neg hrevoked] at hsize₁ ⊢
      by_cases hnone : s.validatorCliff = none
      · rw [if_neg (by simp [hrevoked, hnone])] at hroom
        rw [if_pos hnone]
        omega
      · rw [if_pos (.inr hnone)] at hroom
        rw [if_neg hnone]
        omega

/-! ## Runs -/

theorem StatusAgrees.registered {s₀ : Store} {msg : MsgCreateValidator} (hs : StatusAgrees s)
    (h : registerValidator s msg = .ok (s₀, w)) : StatusAgrees s₀ := by
  obtain ⟨hnone, -, hw, rfl⟩ := registerValidator_eq_ok h
  have hstatus : w.status = .unbonded := by rw [hw]; rfl
  have howner : w.owner = msg.validatorAddr := by rw [hw]; rfl
  refine hs.write rfl (by rw [hstatus]; exact nofun) ?_ hs.self fun _ _ => rfl
  rw [hstatus]
  show _ ↔ s.validatorsBonded[w.owner]? = some w.owner
  rw [← hs.bonded, howner, hnone]
  simp

theorem StatusAgrees.changed {s₁ : Store} (hs : StatusAgrees s) (h : Changed s s₁ w v) :
    StatusAgrees (s₁.setValidator v) := by
  have hs₁ : StatusAgrees s₁ := by
    rw [h.frame]
    exact { hs with }
  have hstored : s₁.getValidator w.owner = some w := by rw [h.getValidator, h.stored]
  exact hs₁.setValidator hstored h.owner h.status

theorem StatusAgrees.removed {a : Address} (hs : StatusAgrees s) (hv : s.getValidator a = some v)
    (howner : v.owner = a) (h : s.removeValidator a = .ok s') :
    StatusAgrees s' ∧ s'.validatorsBonded.size ≤ s.validatorsBonded.size := by
  have hget := removeValidator_getValidator hv h
  obtain ⟨key, -, rfl⟩ := removeValidator_eq_ok hv h
  have hindex : ∀ k b : Address, (s.validatorsBonded.erase v.owner)[k]? = some b ↔
      a ≠ k ∧ s.validatorsBonded[k]? = some b := by
    intro k b
    rw [howner, KVStore.getElem?_erase, ite_eq_iff, or_iff_right (by simp)]
  refine ⟨⟨?_, ?_, ?_⟩, Std.ExtTreeMap.size_erase_le⟩
  · intro b
    rw [hindex, ← hs.bonded]
    simp only [hget, and_assoc, exists_and_left]
  · exact fun k b hb => hs.self k b ((hindex k b).mp hb).2
  · exact fun b u hu => hs.decided b u ((hget b u).mp hu).2

/-- Status and index agree, and the bonded validators fit into the places there are. -/
structure BondedFits (s : Store) : Prop where
  agrees : StatusAgrees s
  size : s.validatorsBonded.size ≤ s.params.maxValidators
  places : 0 < s.params.maxValidators.val

theorem bondedFits_maintained :
    Maintains (fun _ => BondedFits)
      (fun _ s v => StatusAgrees (s.setValidator v) ∧
        s.validatorsBonded.size ≤ s.params.maxValidators ∧ 0 < s.params.maxValidators.val)
      (fun ctx s v => s.Settles ctx v ∧ Fits ctx s v) (fun _ _ => True) where
  register _ hs _ hregister hchanged := by
    refine ⟨(hs.agrees.registered hregister).changed hchanged, ?_⟩
    obtain ⟨-, -, -, rfl⟩ := registerValidator_eq_ok hregister
    rw [hchanged.frame]
    exact ⟨hs.size, hs.places⟩
  change _ hs hchanged := by
    refine ⟨hs.agrees.changed hchanged, ?_⟩
    rw [hchanged.frame]
    exact ⟨hs.size, hs.places⟩
  update hwell hJ hP hw hupdate := by
    have hparams := (Store.updateValidator_updated hwell.validators hw hupdate).touches.params
    refine ⟨statusAgrees_settling.updateValidator (fun _ hs => { hs with })
      hJ.2.2 hwell.validators hw hP.1 hJ.1 hupdate, ?_, ?_⟩ <;> rw [hparams]
    · exact size_updateValidator hJ.2.2 hwell.validators hw hP.1 hP.2 hJ.1 hJ.2.1 hupdate
    · exact hJ.2.2
  remove hwell hJ hP hw hupdate _ _ hremove := by
    have hupdated := Store.updateValidator_updated hwell.validators hw hupdate
    have hs' := statusAgrees_settling.updateValidator
      (fun _ hs => { hs with }) hJ.2.2 hwell.validators hw hP.1 hJ.1 hupdate
    have hsize := size_updateValidator hJ.2.2 hwell.validators hw hP.1 hP.2 hJ.1 hJ.2.1 hupdate
    obtain ⟨hagrees, hfewer⟩ := hs'.removed hupdated.self rfl hremove
    have hparams := hupdated.touches.params
    obtain ⟨key, -, rfl⟩ := removeValidator_eq_ok hupdated.self hremove
    rw [← hparams] at hsize
    exact ⟨hagrees, hfewer.trans hsize, hparams ▸ hJ.2.2⟩
  records _ _ _ _ _ _ hs := ⟨{ hs.agrees with }, hs.size, hs.places⟩

theorem bondedFits_endBlock : KeptByEndBlock fun _ => BondedFits := by
  intro ctx s looseTokens inflation blockTime _ hs _
  exact ⟨{ hs.agrees with }, hs.size, hs.places⟩

/-- In a run from an empty store in which every update settles and fits, a record says bonded exactly
if its owner is in the bonded index, and no more than `maxValidators` are. -/
theorem status_agrees_with_index {params : Params} {pool : Pool} {accounts : Auth.AccountStore}
    {ctx : Ctx} {history : List (State × Op)} {st : State} (hplaces : 0 < params.maxValidators.val)
    (hrun : Run step ⟨ctx, emptyStore params pool accounts⟩ history st)
    (horderly : Run.Meets
      (Orderly (fun ctx s v => s.Settles ctx v ∧ Fits ctx s v) fun _ _ => True) history) :
    (∀ a v, st.store.getValidator a = some v →
        (v.status = .bonded ↔ st.store.validatorsBonded[v.owner]? = some v.owner)) ∧
      st.store.validatorsBonded.size ≤ st.store.params.maxValidators := by
  have hempty : BondedFits (emptyStore params pool accounts) := by
    refine ⟨⟨?_, ?_, ?_⟩, ?_, hplaces⟩
    · intro a
      rw [getValidator_emptyStore]
      simp [emptyStore]
    · simp [emptyStore]
    · intro a v hv
      simp at hv
    · exact Nat.zero_le _
  obtain ⟨hwell, hs⟩ := bondedFits_maintained.run bondedFits_endBlock (emptyStore_wellFormed _ _ _)
    hempty hrun horderly
  refine ⟨fun a v hv => ?_, hs.size⟩
  have hbonded := hs.agrees.bonded a
  rw [hwell.validators a v hv]
  simpa [hv] using hbonded

/-- Validators take each other's places, are revoked and come back. -/
def changingPlaces : List Op :=
  [Example.create 1 10, Example.create 2 5, Example.create 3 3, Example.delegate 4 3 4,
    Example.unbond 2 2 4, .endBlock 10, Example.revoke 1, Example.unbond 2 2 1]

theorem status_agrees_with_index_example :
    ∃ st, Run step (Example.genesis 2) (Run.historyOf step (Example.genesis 2) changingPlaces) st ∧
      (∀ a v, st.store.getValidator a = some v →
        (v.status = .bonded ↔ st.store.validatorsBonded[v.owner]? = some v.owner)) ∧
      st.store.validatorsBonded.size ≤ st.store.params.maxValidators := by
  obtain ⟨st, hrun, -⟩ := Run.of_leadsTo step (Example.genesis 2) changingPlaces (fun _ => true)
    (by decide +kernel)
  exact ⟨st, hrun, status_agrees_with_index (by decide) hrun (by decide +kernel)⟩

/-- When the cliff falls behind, its record says that it is bonded and the index that it is not. -/
theorem status_agrees_with_index_fails :
    ∃ st, Run step (Example.genesis 2)
        (Run.historyOf step (Example.genesis 2) Example.cliffFallsBehind) st ∧
      ∃ v, st.store.getValidator [2] = some v ∧ v.status = .bonded ∧
        st.store.validatorsBonded[v.owner]? = none := by
  obtain ⟨st, hrun, htest⟩ := Run.of_leadsTo step (Example.genesis 2) Example.cliffFallsBehind
    (fun st => decide (∃ v ∈ st.store.getValidator [2], v.status = .bonded ∧
      st.store.validatorsBonded[v.owner]? = none)) (by decide +kernel)
  exact ⟨st, hrun, of_decide_eq_true htest⟩

end Tepleton.Stake
