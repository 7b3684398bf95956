import Tepleton.Lib.KVStore

/-!
# Writes over a map, and merging them into an iteration

A write is a key with a value, or with none to delete the key.  `overlay` applies a list of writes
to a map.  `mergeWrites` merges writes into a list of pairs, both in the order `r`, as an iterator
does that walks a map and the writes over it at once; `Lists.mergeWrites` says that the result is
the iteration over the overlay.  The order is any strict total order, so both directions are covered.
-/

namespace Tepleton.Lib

variable {K V : Type}

namespace KVStore

variable [LinearOrder K]

/-- One write. -/
def applyWrite (t : KVStore K V) (write : K × Option V) : KVStore K V :=
  match write.2 with
  | none => t.erase write.1
  | some v => t.insert write.1 v

/-- Some writes, one after the other. -/
def overlay (t : KVStore K V) (writes : List (K × Option V)) : KVStore K V :=
  writes.foldl applyWrite t

theorem getElem?_applyWrite (t : KVStore K V) (write : K × Option V) (k : K) :
    (t.applyWrite write)[k]? = if write.1 = k then write.2 else t[k]? := by
  unfold applyWrite
  split
  · rename_i hnone
    rw [getElem?_erase, hnone]
  · rename_i v hsome
    rw [getElem?_insert, hsome]

theorem getElem?_overlay_of_forall_ne {t : KVStore K V} {writes : List (K × Option V)} {k : K}
    (h : ∀ write ∈ writes, write.1 ≠ k) : (t.overlay writes)[k]? = t[k]? := by
  induction writes generalizing t with
  | nil => rfl
  | cons write writes ih =>
    have hrest := ih (t := t.applyWrite write) fun w hw => h w (List.mem_cons_of_mem _ hw)
    rw [getElem?_applyWrite, if_neg (h write (by simp))] at hrest
    exact hrest

theorem getElem?_overlay_of_mem {t : KVStore K V} {writes : List (K × Option V)} {k : K} {x : Option V}
    (hdistinct : writes.Pairwise fun a b => a.1 ≠ b.1) (h : (k, x) ∈ writes) :
    (t.overlay writes)[k]? = x := by
  induction writes generalizing t with
  | nil => cases h
  | cons write writes ih =>
    rw [List.pairwise_cons] at hdistinct
    rcases List.mem_cons.mp h with rfl | hmem
    · have hrest : ∀ w ∈ writes, w.1 ≠ k := fun w hw heq => hdistinct.1 w hw heq.symm
      rw [overlay, List.foldl_cons]
      refine (getElem?_overlay_of_forall_ne hrest).trans ?_
      rw [getElem?_applyWrite, if_pos rfl]
    · exact ih hdistinct.2 hmem

end KVStore

/-! ## Merging -/

section Merge

variable (r : K → K → Prop) [DecidableRel r]

/-- The pairs with the writes merged in: a write shadows the pair at its key. -/
def mergeWrites : List (K × V) → List (K × Option V) → List (K × V)
  | pairs, [] => pairs
  | [], (k, x) :: writes => x.toList.map (k, ·) ++ mergeWrites [] writes
  | (k, v) :: pairs, (k', x) :: writes =>
    if r k k' then (k, v) :: mergeWrites pairs ((k', x) :: writes)
    else if r k' k then x.toList.map (k', ·) ++ mergeWrites ((k, v) :: pairs) writes
    else x.toList.map (k', ·) ++ mergeWrites pairs writes
termination_by pairs writes => pairs.length + writes.length

variable {r}

/-- A relation between the keys of two pairs. -/
def OnKeys {α : Type} (r : K → K → Prop) (a b : K × α) : Prop := r a.1 b.1

variable [IsStrictTotalOrder K r] {pairs : List (K × V)} {writes : List (K × Option V)}

omit [DecidableRel r] [IsStrictTotalOrder K r] in
theorem mem_emit {k k' : K} {v : V} {x : Option V} :
    (k, v) ∈ x.toList.map (k', ·) ↔ k = k' ∧ x = some v := by
  cases x with
  | none => simp
  | some w => simp [eq_comm]

omit [DecidableRel r] in
theorem eq_of_neither {a b : K} (hlt : ¬ r a b) (hgt : ¬ r b a) : a = b := by
  rcases trichotomous_of r a b with h | h | h
  · exact absurd h hlt
  · exact h
  · exact absurd h hgt

theorem mem_mergeWrites (hpairs : pairs.Pairwise (OnKeys r)) (hwrites : writes.Pairwise (OnKeys r))
    {k : K} {v : V} : (k, v) ∈ mergeWrites r pairs writes ↔
      (k, some v) ∈ writes ∨ (k, v) ∈ pairs ∧ ∀ x, (k, x) ∉ writes := by
  have hne : ∀ {a b : K}, r a b → a ≠ b := fun hab heq => irrefl_of r _ (heq ▸ hab)
  fun_induction mergeWrites r pairs writes with
  | case1 pairs => simp
  | case2 k' x writes ih =>
    have hrest := ih .nil hwrites.of_cons
    rw [List.mem_append, mem_emit]
    grind
  | case3 k₀ v₀ pairs k' x writes hlt ih =>
    -- the pair comes before every write, so no write shadows it
    have hbefore : ∀ y, (k₀, y) ∉ (k', x) :: writes := by
      intro y hmem
      rcases List.mem_cons.mp hmem with heq | hmem
      · exact hne hlt (congrArg Prod.fst heq)
      · exact hne (trans_of r hlt ((List.pairwise_cons.mp hwrites).1 _ hmem)) rfl
    have hrest := ih hpairs.of_cons hwrites
    rw [List.mem_cons]
    grind
  | case4 k₀ v₀ pairs k' x writes _ hgt ih =>
    -- the write comes before every pair, so it shadows none
    have hbefore : ∀ w, (k', w) ∉ (k₀, v₀) :: pairs := by
      intro w hmem
      rcases List.mem_cons.mp hmem with heq | hmem
      · exact hne hgt (congrArg Prod.fst heq)
      · exact hne (trans_of r hgt ((List.pairwise_cons.mp hpairs).1 _ hmem)) rfl
    have hrest := ih hpairs hwrites.of_cons
    rw [List.mem_append, mem_emit]
    grind
  | case5 k₀ v₀ pairs k' x writes hlt hgt ih =>
    obtain rfl := eq_of_neither hlt hgt
    have hbefore : ∀ w, (k₀, w) ∉ pairs := fun w hmem =>
      hne ((List.pairwise_cons.mp hpairs).1 _ hmem) rfl
    have hrest := ih hpairs.of_cons hwrites.of_cons
    rw [List.mem_append, mem_emit]
    grind

theorem forall_mem_mergeWrites (hpairs : pairs.Pairwise (OnKeys r))
    (hwrites : writes.Pairwise (OnKeys r)) {k : K} (hkp : ∀ pair ∈ pairs, r k pair.1)
    (hkw : ∀ write ∈ writes, r k write.1) : ∀ pair ∈ mergeWrites r pairs writes, r k pair.1 := by
  rintro ⟨k', v⟩ hmem
  rcases (mem_mergeWrites hpairs hwrites).mp hmem with hwrite | ⟨hpair, -⟩
  · exact hkw _ hwrite
  · exact hkp _ hpair

omit [DecidableRel r] [IsStrictTotalOrder K r] in
theorem pairwise_emit_append {k : K} {x : Option V} {rest : List (K × V)}
    (hk : ∀ pair ∈ rest, r k pair.1) (hrest : rest.Pairwise (OnKeys r)) :
    (x.toList.map (k, ·) ++ rest).Pairwise (OnKeys r) := by
  cases x with
  | none => exact hrest
  | some v => exact List.pairwise_cons.mpr ⟨hk, hrest⟩

theorem mergeWrites_pairwise (hpairs : pairs.Pairwise (OnKeys r))
    (hwrites : writes.Pairwise (OnKeys r)) : (mergeWrites r pairs writes).Pairwise (OnKeys r) := by
  fun_induction mergeWrites r pairs writes with
  | case1 pairs => exact hpairs
  | case2 k' x writes ih =>
    have hhead := List.pairwise_cons.mp hwrites
    exact pairwise_emit_append (forall_mem_mergeWrites .nil hhead.2 (by simp) hhead.1)
      (ih .nil hhead.2)
  | case3 k₀ v₀ pairs k' x writes hlt ih =>
    have hhead := List.pairwise_cons.mp hpairs
    refine List.pairwise_cons.mpr ⟨?_, ih hhead.2 hwrites⟩
    refine forall_mem_mergeWrites hhead.2 hwrites hhead.1 ?_
    intro write hmem
    rcases List.mem_cons.mp hmem with rfl | hmem
    · exact hlt
    · exact trans_of r hlt ((List.pairwise_cons.mp hwrites).1 write hmem)
  | case4 k₀ v₀ pairs k' x writes _ hgt ih =>
    have hhead := List.pairwise_cons.mp hwrites
    refine pairwise_emit_append ?_ (ih hpairs hhead.2)
    refine forall_mem_mergeWrites hpairs hhead.2 ?_ hhead.1
    intro pair hmem
    rcases List.mem_cons.mp hmem with rfl | hmem
    · exact hgt
    · exact trans_of r hgt ((List.pairwise_cons.mp hpairs).1 pair hmem)
  | case5 k₀ v₀ pairs k' x writes hlt hgt ih =>
    obtain rfl := eq_of_neither hlt hgt
    have hheadp := List.pairwise_cons.mp hpairs
    have hheadw := List.pairwise_cons.mp hwrites
    exact pairwise_emit_append (forall_mem_mergeWrites hheadp.2 hheadw.2 hheadp.1 hheadw.1)
      (ih hheadp.2 hheadw.2)

instance : Std.Irrefl (OnKeys r : K × V → K × V → Prop) := ⟨fun pair => irrefl_of r pair.1⟩

instance : Std.Antisymm (OnKeys r : K × V → K × V → Prop) :=
  ⟨fun _ _ hab hba => absurd hba (asymm_of r hab)⟩

end Merge

/-! ## Listings -/

section Listing

variable [LinearOrder K] {r : K → K → Prop} {inside : K → Prop} {t : KVStore K V}

/-- The entries of a map whose keys are inside some range, each once, in the order `r`. -/
structure Lists (r : K → K → Prop) (inside : K → Prop) (t : KVStore K V) (pairs : List (K × V)) :
    Prop where
  sorted : pairs.Pairwise (OnKeys r)
  mem_iff : ∀ k v, (k, v) ∈ pairs ↔ t[k]? = some v ∧ inside k

theorem Lists.unique [IsStrictTotalOrder K r] {pairs pairs' : List (K × V)}
    (h : Lists r inside t pairs) (h' : Lists r inside t pairs') : pairs = pairs' :=
  h.sorted.eq_of_mem_iff h'.sorted fun (k, v) => by rw [h.mem_iff, h'.mem_iff]

theorem Lists.nodup [IsStrictTotalOrder K r] {pairs : List (K × V)} (h : Lists r inside t pairs) :
    pairs.Nodup := by
  refine List.nodup_iff_pairwise_ne.mpr (h.sorted.imp ?_)
  rintro pair _ hlt rfl
  exact irrefl_of r pair.1 hlt

theorem lists_toList (inside : K → Prop) [DecidablePred inside] (t : KVStore K V) :
    Lists (· < ·) inside t (t.toList.filter fun pair => inside pair.1) where
  sorted := (KVStore.toList_pairwise t).filter _
  mem_iff := by simp

theorem lists_descending (inside : K → Prop) [DecidablePred inside] (t : KVStore K V) :
    Lists (· > ·) inside t (t.descending.filter fun pair => inside pair.1) where
  sorted := (KVStore.descending_pairwise t).filter _
  mem_iff := by simp [KVStore.mem_descending]

theorem Lists.mergeWrites [DecidableRel r] [IsStrictTotalOrder K r] {pairs : List (K × V)}
    {all writes : List (K × Option V)} (h : Lists r inside t pairs)
    (hdistinct : all.Pairwise fun a b => a.1 ≠ b.1) (hwrites : writes.Pairwise (OnKeys r))
    (hmem : ∀ k x, (k, x) ∈ writes ↔ (k, x) ∈ all ∧ inside k) :
    Lists r inside (t.overlay all) (mergeWrites r pairs writes) where
  sorted := mergeWrites_pairwise h.sorted hwrites
  mem_iff := by
    intro k v
    rw [mem_mergeWrites h.sorted hwrites, h.mem_iff]
    by_cases hwritten : ∃ x, (k, x) ∈ all
    · obtain ⟨x, hx⟩ := hwritten
      have hsame : ∀ y, (k, y) ∈ all → y = x := fun y hy =>
        (KVStore.getElem?_overlay_of_mem (t := t) hdistinct hy).symm.trans
          (KVStore.getElem?_overlay_of_mem hdistinct hx)
      rw [KVStore.getElem?_overlay_of_mem hdistinct hx]
      grind
    · have hfree : ∀ write ∈ all, write.1 ≠ k := fun write hw heq =>
        hwritten ⟨write.2, heq ▸ hw⟩
      rw [KVStore.getElem?_overlay_of_forall_ne hfree]
      grind

end Listing

end Tepleton.Lib
