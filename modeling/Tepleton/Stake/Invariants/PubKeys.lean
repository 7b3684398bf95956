import Tepleton.Stake.Steps

/-!
# Public keys identify validators

`GetValidatorByPubKey` finds every stored validator by its own key exactly as long as no validator
is created with the key of a stored one.  `handleMsgCreateValidator` checks the sender only: a
second validator with the same key takes over the index entry, and the first can no longer be
found, so that slashing or revoking by key hits the wrong validator.
-/

namespace Tepleton.Stake

open Lib

/-- Looking up the key of a stored validator finds this validator. -/
def PubKeysIdentify (s : Store) : Prop :=
  ∀ a v, s.getValidator a = some v → s.getValidatorByPubKey v.pubKey = some v

/-- The index by public key has an entry for every stored validator. -/
def PubKeysIndexed (s : Store) : Prop :=
  ∀ a v, s.getValidator a = some v → s.validatorsByPubKey[v.pubKey]? = some a

variable {s : Store} {v w : Validator} {s' : Store}

theorem pubKeysIdentify_iff (hkeyed : s.Keyed) : PubKeysIdentify s ↔ PubKeysIndexed s := by
  constructor
  · intro hs a v hv
    obtain ⟨b, hb, hget⟩ := Option.bind_eq_some_iff.mp (hs a v hv)
    rw [hb, ← hkeyed a v hv, hkeyed b v hget]
  · intro hs a v hv
    rw [Store.getValidatorByPubKey, hs a v hv]
    exact hv

theorem PubKeysIndexed.unique (hs : PubKeysIndexed s) {a b : Address}
    (hv : s.getValidator a = some v) (hw : s.getValidator b = some w) (h : v.pubKey = w.pubKey) :
    a = b := by
  have ha := hs a v hv
  rw [h, hs b w hw] at ha
  exact (Option.some.inj ha).symm

/-- No stored validator has the key. -/
def PubKeyFree (s : Store) (pubkey : PubKey) : Prop :=
  ∀ entry ∈ s.validators.toList, entry.2.pubKey ≠ pubkey

instance (s : Store) (pubkey : PubKey) : Decidable (PubKeyFree s pubkey) :=
  inferInstanceAs (Decidable (∀ entry ∈ _, _))

theorem pubKeyFree_iff {pubkey : PubKey} :
    PubKeyFree s pubkey ↔ ∀ a v, s.getValidator a = some v → v.pubKey ≠ pubkey := by
  constructor
  · intro h a v hv
    exact h (a, v) (KVStore.mem_toList.mpr hv)
  · rintro h ⟨a, v⟩ hentry
    exact h a v (KVStore.mem_toList.mp hentry)

/-! ## One step -/

theorem PubKeysIndexed.registered {s₀ : Store} {msg : MsgCreateValidator} (hs : PubKeysIndexed s)
    (hfree : PubKeyFree s msg.pubKey) (h : registerValidator s msg = .ok (s₀, w)) : PubKeysIndexed
    s₀ := by
  have hget := registerValidator_getValidator h
  obtain ⟨-, -, hw, rfl⟩ := registerValidator_eq_ok h
  have hpubKey : w.pubKey = msg.pubKey := by rw [hw]; rfl
  intro a v hv
  show (s.validatorsByPubKey.insert w.pubKey w.owner)[v.pubKey]? = some a
  rcases (hget a v).mp hv with ⟨rfl, rfl⟩ | ⟨-, hv⟩
  · exact KVStore.getElem?_insert_self _ _ _
  · rw [KVStore.getElem?_insert_of_ne, hs a v hv]
    rw [hpubKey]
    exact (pubKeyFree_iff.mp hfree a v hv).symm

theorem PubKeysIndexed.changed {s₁ : Store} (hs : PubKeysIndexed s) (h : Changed s s₁ w v) :
    PubKeysIndexed s₁ := by
  rw [h.frame]
  exact hs

theorem Store.Updated.validatorsByPubKey {v' : Validator} (h : Store.Updated v s s' v') :
    s'.validatorsByPubKey = s.validatorsByPubKey := by
  have hfield := congrArg Store.validatorsByPubKey h.touches.frame
  exact hfield

theorem PubKeysIndexed.updated {v' : Validator} (hs : PubKeysIndexed s)
    (hw : s.getValidator v.owner = some w) (hpubKey : v.pubKey = w.pubKey)
    (h : Store.Updated v s s' v') : PubKeysIndexed s' := by
  intro a u hu
  rw [h.validatorsByPubKey]
  by_cases ha : a = v.owner
  · subst ha
    rw [h.stored] at hu
    cases hu
    rw [Validator.pubKey_eq_of_identity h.identity, hpubKey, hs _ w hw]
  · obtain ⟨u₀, hu₀, hcore⟩ := h.before ha hu
    rw [Validator.pubKey_eq_of_identity (Validator.identity_eq_of_core hcore), hs a u₀ hu₀]

theorem PubKeysIndexed.removed {a : Address} (hs : PubKeysIndexed s)
    (hv : s.getValidator a = some v) (h : s.removeValidator a = .ok s') : PubKeysIndexed s' := by
  have hget := removeValidator_getValidator hv h
  obtain ⟨key, -, rfl⟩ := removeValidator_eq_ok hv h
  intro b w hw
  show (s.validatorsByPubKey.erase v.pubKey)[w.pubKey]? = some b
  obtain ⟨hab, hw⟩ := (hget b w).mp hw
  rw [KVStore.getElem?_erase_of_ne, hs b w hw]
  exact fun hkey => hab (hs.unique hv hw hkey)

theorem pubKeysIndexed_maintained :
    Maintains (fun _ => PubKeysIndexed)
      (fun _ s v => PubKeysIndexed s ∧ ∀ w, s.getValidator v.owner = some w → v.pubKey = w.pubKey)
      (fun _ _ _ => True) (fun s msg => PubKeyFree s msg.pubKey) where
  register _ hs hfree hregister hchanged := by
    refine ⟨(hs.registered hfree hregister).changed hchanged, fun w hw => ?_⟩
    exact hchanged.record_eq hw ▸ hchanged.pubKey
  change _ hs hchanged :=
    ⟨hs.changed hchanged, fun w hw => hchanged.record_eq hw ▸ hchanged.pubKey⟩
  update hwell hJ _ hw hupdate :=
    hJ.1.updated hw (hJ.2 _ hw) (Store.updateValidator_updated hwell.validators hw hupdate)
  remove hwell hJ _ hw hupdate _ _ hremove := by
    have hupdated := Store.updateValidator_updated hwell.validators hw hupdate
    exact (hJ.1.updated hw (hJ.2 _ hw) hupdated).removed hupdated.self hremove
  records _ _ _ _ _ _ hs := hs

/-- After a creation with the key of a stored validator the two share a key. -/
theorem not_pubKeysIndexed_of_create {ctx : Ctx} {msg : MsgCreateValidator} (hwell : s.WellFormed)
    (htaken : ¬ PubKeyFree s msg.pubKey) (h : handleMsgCreateValidator ctx s msg = .ok s') : ¬
    PubKeysIndexed s' := by
  intro hs'
  obtain ⟨s₀, w, s₁, v, v', hregister, -, hchanged, hupdate⟩ :=
    handleMsgCreateValidator_eq_ok hwell h
  obtain ⟨hnone, -, hw, -⟩ := registerValidator_eq_ok hregister
  have hwell₁ := hchanged.wellFormed (registerValidator_wellFormed hwell hregister).1
  have hupdated := Store.updateValidator_updated hwell₁.validators hchanged.found hupdate
  have howner : v.owner = msg.validatorAddr := by rw [hchanged.owner, hw]; rfl
  have hpubKey : v'.pubKey = msg.pubKey := by
    rw [Validator.pubKey_eq_of_identity hupdated.identity, hchanged.pubKey, hw]
    rfl
  rw [pubKeyFree_iff] at htaken
  push Not at htaken
  obtain ⟨a, u, hu, htaken⟩ := htaken
  have ha : a ≠ v.owner := by
    rintro rfl
    rw [howner, hnone] at hu
    cases hu
  -- the record of the first validator keeps its key through the creation
  have hu₁ : s₁.getValidator a = some u := by
    rw [hchanged.getValidator, registerValidator_keeps hregister hu]
  obtain ⟨u', hu', hcore⟩ := hupdated.after ha hu₁
  refine ha (hs'.unique hu' hupdated.stored ?_)
  rw [Validator.pubKey_eq_of_identity (Validator.identity_eq_of_core hcore), htaken, hpubKey]

theorem pubKeysIndexed_step_iff {st st' : State} {op : Op} (hwell : st.store.WellFormed)
    (hs : PubKeysIndexed st.store) (hrecent : op.Recent st.ctx) (h : step st op = .ok st') :
    PubKeysIndexed st'.store ↔
      CreationMeets (fun s msg => PubKeyFree s msg.pubKey) st.store op := by
  constructor
  · intro hs'
    cases op with
    | createValidator msg =>
      by_contra htaken
      rcases step_cases h with ⟨blockTime, hop⟩ | ⟨-, hdeliver⟩
      · cases hop
      · obtain ⟨-, -, hcreate⟩ := bind_eq_ok.mp hdeliver
        exact not_pubKeysIndexed_of_create hwell htaken hcreate hs'
    | _ => trivial
  · intro hfree
    have hupdates : UpdatesMeet (fun _ _ _ => True) st.ctx st.store op := (orderly_true hrecent).2.1
    exact (pubKeysIndexed_maintained.step (fun _ _ _ _ hs _ => hs) ⟨hwell, hs⟩
      ⟨hrecent, hupdates, hfree⟩ h).2

/-! ## The entries of the index

Whatever keys validators are created with, an entry of the index leads to a validator with its key:
an entry is lost when its key is taken over, but never left behind. -/

/-- Every entry of the index names a stored validator with its key. -/
def PubKeyEntries (s : Store) : Prop :=
  ∀ (pk : PubKey) a, s.validatorsByPubKey[pk]? = some a →
    ∃ v, s.getValidator a = some v ∧ v.pubKey = pk

namespace PubKeyEntries

variable {s s' : Store} {w v v' : Validator}

theorem found (hs : PubKeyEntries s) {pk : PubKey} (h : s.getValidatorByPubKey pk = some v) :
    v.pubKey = pk := by
  obtain ⟨a, ha, hv⟩ := Option.bind_eq_some_iff.mp h
  obtain ⟨u, hu, hpk⟩ := hs pk a ha
  rw [hv] at hu
  exact Option.some.inj hu ▸ hpk

theorem registered {s₀ : Store} {msg : MsgCreateValidator} (hs : PubKeyEntries s)
    (h : registerValidator s msg = .ok (s₀, w)) : PubKeyEntries s₀ := by
  obtain ⟨-, -, -, rfl⟩ := registerValidator_eq_ok h
  intro pk a ha
  have ha' : (s.validatorsByPubKey.insert w.pubKey w.owner)[pk]? = some a := ha
  rw [KVStore.getElem?_insert] at ha'
  split_ifs at ha' with hpk
  · obtain rfl := Option.some.inj ha'
    exact ⟨w, Store.getValidator_setValidator_self s w, hpk⟩
  · obtain ⟨u, hu, hpubKey⟩ := hs pk a ha'
    exact ⟨u, registerValidator_keeps h hu, hpubKey⟩

theorem changed {s₁ : Store} (hs : PubKeyEntries s) (h : Changed s s₁ w v) : PubKeyEntries s₁ := by
  rw [h.frame]
  exact hs

theorem updated (hs : PubKeyEntries s) (hw : s.getValidator v.owner = some w)
    (hpubKey : v.pubKey = w.pubKey) (h : Store.Updated v s s' v') : PubKeyEntries s' := by
  intro pk a ha
  rw [h.validatorsByPubKey] at ha
  obtain ⟨u, hu, hpk⟩ := hs pk a ha
  by_cases hav : a = v.owner
  · subst hav
    rw [hw] at hu
    refine ⟨v', h.stored, ?_⟩
    rw [Validator.pubKey_eq_of_identity h.identity, hpubKey, Option.some.inj hu, hpk]
  · obtain ⟨u', hu', hcore⟩ := h.after hav hu
    refine ⟨u', hu', ?_⟩
    rw [Validator.pubKey_eq_of_identity (Validator.identity_eq_of_core hcore), hpk]

theorem removed {a : Address} (hs : PubKeyEntries s) (hv : s.getValidator a = some v)
    (h : s.removeValidator a = .ok s') : PubKeyEntries s' := by
  have hget := removeValidator_getValidator hv h
  obtain ⟨key, -, rfl⟩ := removeValidator_eq_ok hv h
  intro pk b hb
  have hb' : (s.validatorsByPubKey.erase v.pubKey)[pk]? = some b := hb
  rw [KVStore.getElem?_erase] at hb'
  split_ifs at hb' with hpk
  obtain ⟨u, hu, hpubKey⟩ := hs pk b hb'
  refine ⟨u, (hget b u).mpr ⟨?_, hu⟩, hpubKey⟩
  rintro rfl
  rw [hv] at hu
  exact hpk (Option.some.inj hu ▸ hpubKey)

end PubKeyEntries

theorem pubKeyEntries_maintained :
    Maintains (fun _ => PubKeyEntries)
      (fun _ s v => PubKeyEntries s ∧ ∀ w, s.getValidator v.owner = some w → v.pubKey = w.pubKey)
      (fun _ _ _ => True) (fun _ _ => True) where
  register _ hs _ hregister hchanged := by
    refine ⟨(hs.registered hregister).changed hchanged, fun w hw => ?_⟩
    exact hchanged.record_eq hw ▸ hchanged.pubKey
  change _ hs hchanged :=
    ⟨hs.changed hchanged, fun w hw => hchanged.record_eq hw ▸ hchanged.pubKey⟩
  update hwell hJ _ hw hupdate :=
    hJ.1.updated hw (hJ.2 _ hw) (Store.updateValidator_updated hwell.validators hw hupdate)
  remove hwell hJ _ hw hupdate _ _ hremove := by
    have hupdated := Store.updateValidator_updated hwell.validators hw hupdate
    exact (hJ.1.updated hw (hJ.2 _ hw) hupdated).removed hupdated.self hremove
  records _ _ _ _ _ _ hs := hs

/-! ## Runs -/

/-- Along a run from an empty store, every stored validator can be found by its key in all states
exactly if no validator was ever created with the key of a stored one. -/
theorem pubKeys_identify_iff {params : Params} {pool : Pool} {accounts : Auth.AccountStore}
    {ctx : Ctx} {history : List (State × Op)} {st : State}
    (hrun : Run step ⟨ctx, emptyStore params pool accounts⟩ history st)
    (hrecent : Run.Meets (fun st op => op.Recent st.ctx) history) :
    Run.Always (fun st => PubKeysIdentify st.store) history st ↔
      Run.Meets (fun st op => CreationMeets (fun s msg => PubKeyFree s msg.pubKey) st.store op)
        history := by
  refine Run.always_iff (fun st => st.store.WellFormed) (emptyStore_wellFormed _ _ _) ?_ ?_ ?_
    hrun hrecent
  · intro a v hv
    simp [Store.getValidator, emptyStore] at hv
  · intro st op st' hwell hallowed h
    exact step_wellFormed hwell hallowed h
  · intro st op st' hwell hs hallowed h
    have hwell' := step_wellFormed hwell hallowed h
    rw [pubKeysIdentify_iff hwell.validators] at hs
    rw [pubKeysIdentify_iff hwell'.validators]
    exact pubKeysIndexed_step_iff hwell hs hallowed h

theorem pubKeys_identify_iff_example :
    ∃ st, Run step (Example.genesis 2) (Run.historyOf step (Example.genesis 2)
        [Example.create 1 10, Example.create 2 5, Example.unbond 1 1 10, Example.create 1 4]) st ∧
      Run.Always (fun st => PubKeysIdentify st.store) (Run.historyOf step (Example.genesis 2)
        [Example.create 1 10, Example.create 2 5, Example.unbond 1 1 10, Example.create 1 4]) st := by
  obtain ⟨st, hrun, -⟩ := Run.of_leadsTo step (Example.genesis 2)
    [Example.create 1 10, Example.create 2 5, Example.unbond 1 1 10, Example.create 1 4]
    (fun _ => true) (by decide +kernel)
  exact ⟨st, hrun, (pubKeys_identify_iff hrun (by decide +kernel)).mpr (by decide +kernel)⟩

/-- Account `[2]` creates a validator with the key of the validator of account `[1]`. -/
def duplicatePubKey : List Op :=
  [Example.create 1 10,
    .createValidator ⟨⟨"v", "", "", ""⟩, [2], [101], ⟨defaultParams.bondDenom, 5⟩⟩]

/-- After that, looking up the key of the first validator finds the second. -/
theorem pubKeys_identify_fails :
    ∃ st, Run step (Example.genesis 2)
        (Run.historyOf step (Example.genesis 2) duplicatePubKey) st ∧
      ¬ PubKeysIdentify st.store := by
  obtain ⟨st, hrun, htest⟩ := Run.of_leadsTo step (Example.genesis 2) duplicatePubKey
    (fun st => decide (∃ v ∈ st.store.getValidator [1],
      st.store.getValidatorByPubKey v.pubKey ≠ some v)) (by decide +kernel)
  obtain ⟨v, hv, hlost⟩ := of_decide_eq_true htest
  exact ⟨st, hrun, fun hs => hlost (hs _ v hv)⟩

end Tepleton.Stake
