import Mathlib

/-!
# Ordered key-value stores

`KVStore K V` is the standard library's extensional tree map over the order of `K`: `t[k]?` reads,
`t.insert` and `t.erase` write, `t.toList` iterates upwards and `t.descending` downwards.  What is
added here is the sum of a weight over all entries and how one write changes it.
-/

namespace Tepleton.Lib

open Std

/-- A finite map iterated in the order of its keys. -/
abbrev KVStore (K V : Type) [LinearOrder K] := ExtTreeMap K V LinearOrder.toOrd.compare

namespace KVStore

variable {K V : Type} [LinearOrder K] {M : Type*} [AddCommMonoid M]

-- a definition over a store then refers to the instance, and not to a proof of its own
instance transCmp : TransCmp (LinearOrder.toOrd (α := K)).compare := inferInstance

theorem getElem?_insert (t : KVStore K V) (k k' : K) (v : V) [Decidable (k = k')] :
    (t.insert k v)[k']? = if k = k' then some v else t[k']? := by
  rw [ExtTreeMap.getElem?_insert]
  split <;> simp_all

theorem getElem?_erase (t : KVStore K V) (k k' : K) [Decidable (k = k')] :
    (t.erase k)[k']? = if k = k' then none else t[k']? := by
  rw [ExtTreeMap.getElem?_erase]
  split <;> simp_all

@[simp] theorem getElem?_insert_self (t : KVStore K V) (k : K) (v : V) :
    (t.insert k v)[k]? = some v := by
  rw [getElem?_insert, if_pos rfl]

theorem getElem?_insert_of_ne (t : KVStore K V) {k k' : K} (v : V) (hne : k ≠ k') :
    (t.insert k v)[k']? = t[k']? := by
  rw [getElem?_insert, if_neg hne]

theorem getElem?_erase_of_ne (t : KVStore K V) {k k' : K} (hne : k ≠ k') :
    (t.erase k)[k']? = t[k']? := by
  rw [getElem?_erase, if_neg hne]

@[simp] theorem getElem?_empty (k : K) : (∅ : KVStore K V)[k]? = none :=
  ExtTreeMap.getElem?_empty

theorem ext {t t' : KVStore K V} (h : ∀ k : K, t[k]? = t'[k]?) : t = t' :=
  ExtTreeMap.ext_getElem? fun {k} => h k

theorem mem_toList {t : KVStore K V} {k : K} {v : V} : (k, v) ∈ t.toList ↔ t[k]? = some v :=
  ExtTreeMap.mem_toList_iff_getElem?_eq_some

theorem insert_insert_self (t : KVStore K V) (k : K) (v w : V) :
    (t.insert k v).insert k w = t.insert k w := by
  apply ext
  intro k'
  simp only [getElem?_insert]
  split <;> rfl

theorem insert_comm (t : KVStore K V) {k k' : K} (v v' : V) (hne : k ≠ k') :
    (t.insert k v).insert k' v' = (t.insert k' v').insert k v := by
  apply ext
  intro key
  simp only [getElem?_insert]
  split
  · rename_i heq
    rw [if_neg]
    rintro rfl
    exact hne heq.symm
  · rfl

theorem erase_insert_self (t : KVStore K V) (k : K) (v : V) :
    (t.insert k v).erase k = t.erase k := by
  apply ext
  intro k'
  simp only [getElem?_erase, getElem?_insert]
  split <;> simp_all

theorem erase_eq_self {t : KVStore K V} {k : K} (h : t[k]? = none) : t.erase k = t := by
  apply ext
  intro k'
  rw [getElem?_erase]
  split
  · rename_i heq
    rw [← heq, h]
  · rfl

theorem size_insert_le (t : KVStore K V) (k : K) (v : V) : (t.insert k v).size ≤ t.size + 1 :=
  ExtTreeMap.size_insert_le

theorem size_erase_of_some {t : KVStore K V} {k : K} {v : V} (h : t[k]? = some v) :
    (t.erase k).size + 1 = t.size := by
  have hmem : k ∈ t := ExtTreeMap.mem_iff_isSome_getElem?.mpr (by rw [h]; rfl)
  have hpos : t.size ≠ 0 := fun hzero => by
    rw [ExtTreeMap.eq_empty_iff_size_eq_zero.mpr hzero] at hmem
    exact ExtTreeMap.not_mem_empty hmem
  rw [ExtTreeMap.size_erase, if_pos (ExtTreeMap.contains_iff_mem.mpr hmem)]
  omega

/-! ## Entries -/

section Entries

variable {P : K → V → Prop} {W : V → V → Prop} {t t' t'' : KVStore K V} {k : K} {v v' : V}

theorem forall_insert (h : ∀ k' v', t[k']? = some v' → P k' v') (hv : P k v) :
    ∀ k' v', (t.insert k v)[k']? = some v' → P k' v' := by
  intro k' v' hget
  rw [getElem?_insert] at hget
  split_ifs at hget with hkey
  · cases hget
    exact hkey ▸ hv
  · exact h k' v' hget

theorem forall_erase (h : ∀ k' v', t[k']? = some v' → P k' v') :
    ∀ k' v', (t.erase k)[k']? = some v' → P k' v' := by
  intro k' v' hget
  rw [getElem?_erase] at hget
  split_ifs at hget
  exact h k' v' hget

/-- Every value of `t'` is related to the one that `t` has under the same key. -/
def Derives (W : V → V → Prop) (t t' : KVStore K V) : Prop :=
  ∀ (k : K) (v' : V), t'[k]? = some v' → ∃ v, t[k]? = some v ∧ W v v'

theorem Derives.refl (hW : ∀ v, W v v) (t : KVStore K V) : t.Derives W t :=
  fun _ v hget => ⟨v, hget, hW v⟩

theorem Derives.trans (hW : ∀ {a b c}, W a b → W b c → W a c) (h : t.Derives W t')
    (h' : t'.Derives W t'') : t.Derives W t'' := by
  intro k v'' hget
  obtain ⟨v', hget', hv'⟩ := h' k v'' hget
  obtain ⟨v, hget, hv⟩ := h k v' hget'
  exact ⟨v, hget, hW hv hv'⟩

theorem Derives.insert (h : t.Derives W t') (hget : t[k]? = some v) (hW : W v v') :
    t.Derives W (t'.insert k v') :=
  forall_insert h ⟨v, hget, hW⟩

theorem Derives.forall (h : t.Derives W t') (hP : ∀ {k v v'}, W v v' → P k v → P k v')
    (ht : ∀ k v, t[k]? = some v → P k v) : ∀ k v', t'[k]? = some v' → P k v' := by
  intro k v' hget
  obtain ⟨v, hbefore, hW⟩ := h k v' hget
  exact hP hW (ht k v hbefore)

end Entries

/-! ## Iteration -/

theorem toList_pairwise (t : KVStore K V) : t.toList.Pairwise fun a b => a.1 < b.1 := by
  refine (ExtTreeMap.ordered_keys_toList (t := t)).imp ?_
  intro a b hlt
  exact compare_lt_iff_lt.mp hlt

theorem keys_nodup (t : KVStore K V) : (t.toList.map Prod.fst).Nodup := by
  rw [List.Nodup, List.pairwise_map]
  exact (toList_pairwise t).imp fun hlt => hlt.ne

theorem toList_nodup (t : KVStore K V) : t.toList.Nodup := .of_map Prod.fst (keys_nodup t)

/-- The entries from the largest key to the smallest. -/
def descending (t : KVStore K V) : List (K × V) := t.toList.reverse

theorem mem_descending {t : KVStore K V} {k : K} {v : V} :
    (k, v) ∈ t.descending ↔ t[k]? = some v := by
  rw [descending, List.mem_reverse, mem_toList]

theorem descending_pairwise (t : KVStore K V) : t.descending.Pairwise fun a b => b.1 < a.1 := by
  rw [descending, List.pairwise_reverse]
  exact toList_pairwise t

theorem length_filter_of_descending [DecidableLT K] {t : KVStore K V} {i : ℕ} {k : K} {v : V}
    (h : t.descending[i]? = some (k, v)) : (t.toList.filter fun entry => k < entry.1).length = i := by
  obtain ⟨hi, hentry⟩ := List.getElem?_eq_some_iff.mp h
  have hsplit : t.descending = t.descending.take i ++ (k, v) :: t.descending.drop (i + 1) := by
    rw [← hentry, List.getElem_cons_drop, List.take_append_drop]
  have hsorted := descending_pairwise t
  rw [hsplit, List.pairwise_append, List.pairwise_cons] at hsorted
  obtain ⟨-, ⟨hbelow, -⟩, habove⟩ := hsorted
  have hfilter : t.descending.filter (fun entry => k < entry.1) = t.descending.take i := by
    conv_lhs => rw [hsplit]
    rw [List.filter_append, List.filter_cons_of_neg (by simp)]
    rw [List.filter_eq_self.mpr, List.filter_eq_nil_iff.mpr, List.append_nil]
    · intro entry hentry
      simpa using (hbelow entry hentry).le
    · intro entry hentry
      simpa using habove entry hentry (k, v) (by simp)
  rw [← List.length_reverse, ← List.filter_reverse, ← descending, hfilter, List.length_take]
  omega

theorem getElem?_foldl_erase (t : KVStore K V) (keys : List K) (k : K) :
    (keys.foldl (fun t key => t.erase key) t)[k]? = if k ∈ keys then none else t[k]? := by
  induction keys generalizing t with
  | nil => simp
  | cons key keys ih =>
    rw [List.foldl_cons, ih, getElem?_erase]
    by_cases hk : k ∈ keys
    · simp [hk]
    · by_cases heq : key = k
      · simp [heq]
      · simp [hk, heq, Ne.symm heq]

theorem getElem?_foldl_insert {entries : List (K × V)} (hnodup : (entries.map Prod.fst).Nodup)
    {k : K} {v : V} (hmem : (k, v) ∈ entries) (t : KVStore K V) :
    (entries.foldl (fun t entry => t.insert entry.1 entry.2) t)[k]? = some v := by
  induction entries using List.reverseRecOn with
  | nil => exact absurd hmem List.not_mem_nil
  | append_singleton entries entry ih =>
    rw [List.foldl_concat]
    rw [List.map_append, List.nodup_append] at hnodup
    obtain ⟨hbefore, -, hdisjoint⟩ := hnodup
    rcases List.mem_append.mp hmem with hmem | hlast
    · have hne : entry.1 ≠ k := (hdisjoint k (List.mem_map_of_mem hmem) entry.1 (by simp)).symm
      rw [getElem?_insert_of_ne _ _ hne]
      exact ih hbefore hmem
    · obtain rfl := List.mem_singleton.mp hlast
      exact getElem?_insert_self _ _ _

theorem getElem?_foldl_insert_of_keys (value : K → V) (t : KVStore K V) (keys : List K) (k : K) :
    (keys.foldl (fun t key => t.insert key (value key)) t)[k]? =
      if k ∈ keys then some (value k) else t[k]? := by
  induction keys generalizing t with
  | nil => simp
  | cons key keys ih =>
    rw [List.foldl_cons, ih, getElem?_insert]
    by_cases hk : k ∈ keys
    · simp [hk]
    · by_cases heq : key = k
      · simp [heq]
      · simp [hk, heq, Ne.symm heq]

theorem getElem?_foldl_erase_filter (t : KVStore K V) (test : K → Bool) (k : K) :
    ((t.toList.filter fun entry => test entry.1).foldl (fun t entry => t.erase entry.1) t)[k]? =
      if test k then none else t[k]? := by
  have hkeys : (t.toList.filter fun entry => test entry.1).foldl (fun t entry => t.erase entry.1) t =
      ((t.toList.filter fun entry => test entry.1).map Prod.fst).foldl (fun t key => t.erase key) t := by
    rw [List.foldl_map]
  rw [hkeys, getElem?_foldl_erase]
  cases hk : t[k]? with
  | none => simp
  | some v =>
    have hmem : k ∈ (t.toList.filter fun entry => test entry.1).map Prod.fst ↔ test k = true := by
      simp [hk]
    simp only [hmem]

/-! ## Sums over the entries -/

/-- The sum of `weight` over all entries. -/
def sumBy (weight : K → V → M) (t : KVStore K V) : M :=
  (t.toList.map fun entry => weight entry.1 entry.2).sum

@[simp] theorem sumBy_empty (weight : K → V → M) : sumBy weight (∅ : KVStore K V) = 0 := by
  have hnil : (∅ : KVStore K V).toList = [] := ExtTreeMap.toList_eq_nil_iff.mpr rfl
  simp [sumBy, hnil]

theorem toList_perm_cons_erase {t : KVStore K V} {k : K} {v : V} (h : t[k]? = some v) :
    t.toList.Perm ((k, v) :: (t.erase k).toList) := by
  rw [List.perm_ext_iff_of_nodup (toList_nodup t)]
  · rintro ⟨k', v'⟩
    rw [List.mem_cons, mem_toList, mem_toList, getElem?_erase]
    split
    · rename_i heq
      subst heq
      simp [h, eq_comm]
    · rename_i hne
      simp [Ne.symm hne]
  · rw [List.nodup_cons, mem_toList]
    exact ⟨by simp, toList_nodup _⟩

theorem sumBy_eq_add_erase (weight : K → V → M) {t : KVStore K V} {k : K} {v : V}
    (h : t[k]? = some v) : sumBy weight t = weight k v + sumBy weight (t.erase k) := by
  unfold sumBy
  rw [((toList_perm_cons_erase h).map _).sum_eq]
  simp

theorem sumBy_insert (weight : K → V → M) (t : KVStore K V) (k : K) (v : V) :
    sumBy weight (t.insert k v) = weight k v + sumBy weight (t.erase k) := by
  rw [sumBy_eq_add_erase weight (getElem?_insert_self t k v), erase_insert_self]

theorem sumBy_congr {weight weight' : K → V → M} {t : KVStore K V}
    (h : ∀ k v, t[k]? = some v → weight k v = weight' k v) : sumBy weight t = sumBy weight' t := by
  rw [sumBy, sumBy]
  congr 1
  exact List.map_congr_left fun entry hentry => h entry.1 entry.2 (mem_toList.mp hentry)

theorem sumBy_eq_zero {weight : K → V → M} {t : KVStore K V}
    (h : ∀ k v, t[k]? = some v → weight k v = 0) : sumBy weight t = 0 := by
  rw [sumBy_congr h, sumBy]
  simp

theorem sumBy_add (weight weight' : K → V → M) (t : KVStore K V) :
    sumBy (fun k v => weight k v + weight' k v) t = sumBy weight t + sumBy weight' t := by
  rw [sumBy, sumBy, sumBy, ← List.sum_map_add]

/-- The sum over a store whose entries come from the entries of another one under the same key. -/
theorem sumBy_of_bind {W : Type} (weight : K → W → M) {t : KVStore K V} {t' : KVStore K W}
    (f : K → V → Option W) (h : ∀ k : K, t'[k]? = t[k]?.bind (f k)) :
    sumBy weight t' = sumBy (fun k v => (f k v).elim 0 (weight k)) t := by
  let g : K × V → Option (K × W) := fun entry => (f entry.1 entry.2).map (Prod.mk entry.1)
  have hkeys : ∀ entries : List (K × V),
      ((entries.filterMap g).map Prod.fst).Sublist (entries.map Prod.fst) := by
    intro entries
    induction entries with
    | nil => exact .refl _
    | cons entry entries ih =>
      cases hentry : f entry.1 entry.2 with
      | none => simpa [g, hentry] using ih.cons entry.1
      | some w => simpa [g, hentry] using ih
  have hnodup : (t.toList.filterMap g).Nodup :=
    List.Nodup.of_map Prod.fst ((hkeys t.toList).nodup (keys_nodup t))
  have hperm : t'.toList.Perm (t.toList.filterMap g) := by
    rw [List.perm_ext_iff_of_nodup (toList_nodup t') hnodup]
    rintro ⟨k, w⟩
    simp only [mem_toList, h, Option.bind_eq_some_iff, List.mem_filterMap, g, Option.map_eq_some_iff,
      Prod.mk.injEq, Prod.exists]
    constructor
    · rintro ⟨v, hv, hw⟩
      exact ⟨k, v, hv, w, hw, rfl, rfl⟩
    · rintro ⟨k', v, hv, w', hw, rfl, rfl⟩
      exact ⟨v, hv, hw⟩
  have hsum : ∀ entries : List (K × V),
      ((entries.filterMap g).map fun entry => weight entry.1 entry.2).sum =
        (entries.map fun entry => (f entry.1 entry.2).elim 0 (weight entry.1)).sum := by
    intro entries
    induction entries with
    | nil => rfl
    | cons entry entries ih =>
      cases hentry : f entry.1 entry.2 with
      | none => simp [g, hentry, ← ih]
      | some w => simp [g, hentry, ← ih]
  rw [sumBy, (hperm.map _).sum_eq, hsum, sumBy]

theorem sumBy_of_getElem? (weight : K → V → M) {t t' : KVStore K V} (test : K → Bool)
    (h : ∀ k : K, t'[k]? = if test k then none else t[k]?) :
    sumBy weight t' = sumBy (fun k v => if test k then 0 else weight k v) t := by
  rw [sumBy_of_bind weight (t := t) (fun k v => if test k then none else some v)]
  · refine sumBy_congr fun k v _ => ?_
    cases test k <;> simp
  · intro k
    rw [h]
    cases test k <;> simp

theorem sumBy_single (weight : V → M) (t : KVStore K V) (k : K) :
    sumBy (fun k' v => if k = k' then weight v else 0) t = t[k]?.elim 0 weight := by
  cases hv : t[k]? with
  | none =>
    refine sumBy_eq_zero fun k' v' hv' => if_neg ?_
    rintro rfl
    rw [hv] at hv'
    cases hv'
  | some v =>
    have hrest : sumBy (fun k' v => if k = k' then weight v else 0) (t.erase k) = 0 := by
      refine sumBy_eq_zero fun k' v' hv' => if_neg ?_
      rintro rfl
      simp at hv'
    rw [sumBy_eq_add_erase _ hv, hrest, if_pos rfl, add_zero, Option.elim_some]

theorem sumBy_sum {ι : Type*} (key : ι → K) (weight : ι → V → M) (t : KVStore K V) (xs : List ι) :
    sumBy (fun k v => (xs.map fun x => if key x = k then weight x v else 0).sum) t =
      (xs.map fun x => t[key x]?.elim 0 (weight x)).sum := by
  induction xs with
  | nil => exact sumBy_eq_zero fun _ _ _ => rfl
  | cons x xs ih =>
    simp only [List.map_cons, List.sum_cons]
    rw [sumBy_add, sumBy_single, ih]

theorem sumBy_insert_of_none (weight : K → V → M) {t : KVStore K V} {k : K} (v : V)
    (h : t[k]? = none) : sumBy weight (t.insert k v) = weight k v + sumBy weight t := by
  rw [sumBy_insert, erase_eq_self h]

end KVStore

end Tepleton.Lib
