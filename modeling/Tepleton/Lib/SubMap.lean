import Tepleton.Lib.Digits
import Tepleton.Lib.Overlay

/-!
# The part of a map under a common beginning

In the lexicographic order the lists that begin with `p` lie together: whatever lies between two of them
begins with `p` too (`prefix_of_between`).  `subMap p t` is the part of a map under `p`, with `p` taken
away from the keys; writing below `p` in the map is writing in this part.
-/

namespace Tepleton.Lib

variable {α : Type} [LinearOrder α] {V : Type}

@[simp] theorem append_lt_append_left_iff (p a b : List α) : p ++ a < p ++ b ↔ a < b := by
  rw [append_lt_append_iff rfl]
  simp

@[simp] theorem append_le_append_left_iff (p a b : List α) : p ++ a ≤ p ++ b ↔ a ≤ b := by
  rw [← not_lt, ← not_lt, append_lt_append_left_iff]

theorem nil_le (a : List α) : [] ≤ a := not_lt.mp (List.not_lt_nil a)

theorem prefix_of_between {p a b key : List α} (hlow : p ++ a ≤ key) (hhigh : key < p ++ b) :
    p <+: key := by
  induction p generalizing key with
  | nil => exact List.nil_prefix
  | cons x p ih =>
    cases key with
    | nil => exact absurd hlow (by simp)
    | cons y key =>
      rw [List.cons_append] at hlow hhigh
      rw [← not_lt, List.cons_lt_cons_iff] at hlow
      rw [List.cons_lt_cons_iff] at hhigh
      obtain ⟨rfl, hbelow⟩ : y = x ∧ key < p ++ b := by
        rcases hhigh with hlt | h
        · exact absurd (Or.inl hlt) hlow
        · exact h
      have habove : p ++ a ≤ key := not_lt.mp fun hlt => hlow (Or.inr ⟨rfl, hlt⟩)
      exact List.cons_prefix_cons.mpr ⟨rfl, ih habove hbelow⟩

namespace KVStore

/-- The entries under `p`, without it. -/
def entriesUnder (p : List α) (t : KVStore (List α) V) : List (List α × Option V) :=
  (t.toList.filter fun entry => p <+: entry.1).map fun entry =>
    (entry.1.drop p.length, some entry.2)

/-- The part of a map under `p`. -/
def subMap (p : List α) (t : KVStore (List α) V) : KVStore (List α) V :=
  (∅ : KVStore (List α) V).overlay (entriesUnder p t)

theorem mem_entriesUnder {p key : List α} {t : KVStore (List α) V} {value : Option V} :
    (key, value) ∈ entriesUnder p t ↔ ∃ v, value = some v ∧ t[p ++ key]? = some v := by
  rw [entriesUnder, List.mem_map]
  constructor
  · rintro ⟨⟨whole, v⟩, hmem, heq⟩
    obtain ⟨hentry, hunder⟩ := List.mem_filter.mp hmem
    obtain ⟨rest, rfl⟩ := of_decide_eq_true hunder
    rw [Prod.mk.injEq, List.drop_left] at heq
    obtain ⟨rfl, rfl⟩ := heq
    exact ⟨v, rfl, mem_toList.mp hentry⟩
  · rintro ⟨v, rfl, hv⟩
    exact ⟨(p ++ key, v), List.mem_filter.mpr ⟨mem_toList.mpr hv, by simp⟩, by simp⟩

theorem entriesUnder_distinct (p : List α) (t : KVStore (List α) V) :
    (entriesUnder p t).Pairwise fun a b => a.1 ≠ b.1 := by
  rw [entriesUnder, List.pairwise_map, List.pairwise_filter]
  refine (toList_pairwise t).imp ?_
  intro a b hlt ha hb heq
  obtain ⟨rest, hrest⟩ := of_decide_eq_true ha
  obtain ⟨rest', hrest'⟩ := of_decide_eq_true hb
  dsimp only at heq
  rw [← hrest, ← hrest', List.drop_left, List.drop_left] at heq
  rw [← hrest, ← hrest', heq] at hlt
  exact lt_irrefl _ hlt

@[simp] theorem getElem?_subMap (p key : List α) (t : KVStore (List α) V) :
    (subMap p t)[key]? = t[p ++ key]? := by
  rw [subMap]
  cases hv : t[p ++ key]? with
  | some v =>
    exact getElem?_overlay_of_mem (entriesUnder_distinct p t)
      (mem_entriesUnder.mpr ⟨v, rfl, hv⟩)
  | none =>
    have hfree : ∀ entry ∈ entriesUnder p t, entry.1 ≠ key := by
      rintro ⟨key', value⟩ hmem rfl
      obtain ⟨v, -, hv'⟩ := mem_entriesUnder.mp hmem
      rw [hv] at hv'
      cases hv'
    rw [getElem?_overlay_of_forall_ne hfree, getElem?_empty]

theorem subMap_insert (p key : List α) (value : V) (t : KVStore (List α) V) :
    subMap p (t.insert (p ++ key) value) = (subMap p t).insert key value := by
  apply ext
  intro key'
  simp [getElem?_insert]

theorem subMap_erase (p key : List α) (t : KVStore (List α) V) :
    subMap p (t.erase (p ++ key)) = (subMap p t).erase key := by
  apply ext
  intro key'
  simp [getElem?_erase]

theorem subMap_subMap (p q : List α) (t : KVStore (List α) V) :
    subMap q (subMap p t) = subMap (p ++ q) t := by
  apply ext
  intro key
  simp

end KVStore

/-- A listing of a map, all of whose keys are under `p`, is one of the part under `p`. -/
theorem Lists.subMap {p : List α} {t : KVStore (List α) V} {inside inside' : List α → Prop}
    {pairs : List (List α × V)} (h : Lists (· < ·) inside' t pairs)
    (hinside : ∀ key, inside' key ↔ ∃ rest, key = p ++ rest ∧ inside rest) :
    Lists (· < ·) inside (KVStore.subMap p t) (pairs.map fun pair => (pair.1.drop p.length, pair.2)) where
  sorted := by
    rw [List.pairwise_map]
    refine h.sorted.imp_of_mem ?_
    rintro ⟨key, value⟩ ⟨key', value'⟩ hmem hmem' hlt
    obtain ⟨rest, rfl, -⟩ := (hinside key).mp ((h.mem_iff _ _).mp hmem).2
    obtain ⟨rest', rfl, -⟩ := (hinside key').mp ((h.mem_iff _ _).mp hmem').2
    simpa [OnKeys] using hlt
  mem_iff := by
    intro key value
    rw [List.mem_map, KVStore.getElem?_subMap]
    constructor
    · rintro ⟨⟨whole, value'⟩, hmem, heq⟩
      obtain ⟨hget, hin⟩ := (h.mem_iff _ _).mp hmem
      obtain ⟨rest, rfl, hrest⟩ := (hinside whole).mp hin
      rw [Prod.mk.injEq, List.drop_left] at heq
      obtain ⟨rfl, rfl⟩ := heq
      exact ⟨hget, hrest⟩
    · rintro ⟨hget, hin⟩
      exact ⟨(p ++ key, value), (h.mem_iff _ _).mpr ⟨hget, (hinside _).mpr ⟨key, rfl, hin⟩⟩, by simp⟩

end Tepleton.Lib
