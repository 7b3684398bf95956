import Tepleton.Store.Iterator

/-!
# Ranges with their bounds the wrong way round

`Iterator(start, end)` is documented to be invalid unless `start` is less than `end`, and the iterator
of the IAVL store is.  `newMemIterator` is not told the direction but guesses it from the bounds: with
`start` above `end` it takes the iteration for a reverse one, whose domain goes from `start` down to
`end` without it.  So a cache over the store yields what it has written there
(`reversed_range_invalid_iff`).

`Last` in `store/firstlast.go` keeps to the convention but loses a key: when only `start` and `end` are
in the store, it skips `end` and does not look at `start` (`last_exact_iff`).
-/

namespace Tepleton.Store

open Lib

/-- What `dbm.IsKeyInDomain` says about a reverse iteration between two bounds. -/
def TestsReverse (isKeyInDomain : DomainTest) : Prop :=
  ∀ key start stop : Bytes,
    isKeyInDomain key (some start) (some stop) true = true ↔ key ≤ start ∧ stop < key

theorem isKeyInDomain_testsReverse : TestsReverse isKeyInDomain := by
  intro key start stop
  simp [isKeyInDomain]

/-- What is assumed of the store below: its iterator over a range that is empty or the wrong way round
has nothing to yield. -/
def BottomIterator.RefusesReversed {ι : Type} (bottom : BottomIterator ι) : Prop :=
  ∃ R : ι → List (Bytes × Bytes) → Prop, bottom.cursor.Follows R ∧
    ∀ content start stop, stop ≤ start →
      R (bottom.iterator content (some start) (some stop) true) []

/-- `Valid` says no. -/
def Invalid {ι : Type} (c : Cursor IteratorPanic ι Bytes Bytes) (iter : ι) : Prop :=
  ∃ iter', c.valid iter = .ok (false, iter')

theorem invalid_iff_of_follows {ι : Type} {c : Cursor IteratorPanic ι Bytes Bytes}
    {R : ι → List (Bytes × Bytes) → Prop} (hc : c.Follows R) {iter : ι}
    {pairs : List (Bytes × Bytes)} (h : R iter pairs) : Invalid c iter ↔ pairs = [] := by
  obtain ⟨iter', hvalid, -⟩ := hc.valid h
  rw [Invalid, hvalid]
  cases pairs <;> simp

theorem mergeWrites_nil_eq_nil_iff {r : Bytes → Bytes → Prop} [DecidableRel r]
    {items : List (Bytes × Option Bytes)} :
    mergeWrites r [] items = [] ↔ ∀ item ∈ items, item.2 = none := by
  induction items with
  | nil => simp [mergeWrites]
  | cons item items ih =>
    obtain ⟨key, value⟩ := item
    cases value with
    | none => simp [mergeWrites, ih]
    | some value => simp [mergeWrites]

theorem mem_newMemIterator_reversed {isKeyInDomain : DomainTest}
    (hreverse : TestsReverse isKeyInDomain) {start stop : Bytes} (hbounds : stop ≤ start)
    {items : List (Bytes × Option Bytes)} {item : Bytes × Option Bytes} :
    item ∈ newMemIterator isKeyInDomain (some start) (some stop) items ↔
      item ∈ items ∧ item.1 ≤ start ∧ stop < item.1 := by
  have hguess : (keyCompare (some start) (some stop) == .lt) = false := by
    rw [beq_eq_false_iff_ne, keyCompare, Ne, bytesCompare_eq_lt_iff]
    exact hbounds.not_gt
  rw [newMemIterator, List.mem_filter]
  simp only [hguess, Bool.not_false, hreverse item.1 start stop]

/-- A cache over an IAVL store refuses a range whose start is not below its end exactly if it has
written no key above the end and up to the start. -/
theorem reversed_range_invalid_iff {ι : Type} {isKeyInDomain : DomainTest}
    (hreverse : TestsReverse isKeyInDomain) {bottom : BottomIterator ι}
    (hbottom : bottom.RefusesReversed) (content : KVStore Bytes Bytes)
    (cache : KVStore Bytes CValue) {start stop : Bytes} (hbounds : stop ≤ start) :
    Invalid (stackCursor bottom 1) ((Layers.cacheKVStore cache (.bottom content)).iterator
        isKeyInDomain bottom (some start) (some stop) true) ↔
      ∀ key cacheValue, cache[key]? = some cacheValue → cacheValue.dirty = true →
        cacheValue.value ≠ none → ¬ (stop < key ∧ key ≤ start) := by
  obtain ⟨R, hfollows, hempty⟩ := hbottom
  let items := newMemIterator isKeyInDomain (some start) (some stop) (dirtyItems cache true)
  have hyet : CacheMergeIterator.Yet R ((Layers.cacheKVStore cache (.bottom content)).iterator
      isKeyInDomain bottom (some start) (some stop) true) (mergeWrites (Before true) [] items) :=
    ⟨[], hempty content start stop hbounds, rfl⟩
  have hinvalid := invalid_iff_of_follows (CacheMergeIterator.cursor_follows hfollows) hyet
  refine hinvalid.trans (mergeWrites_nil_eq_nil_iff.trans ?_)
  constructor
  · intro hnone key cacheValue hcache hdirty hvalue ⟨hlow, hhigh⟩
    have hitem : (key, cacheValue.value) ∈ items :=
      (mem_newMemIterator_reversed hreverse hbounds).mpr
        ⟨mem_dirtyItems.mpr (mem_writes.mpr ⟨cacheValue, hcache, hdirty, rfl⟩), hhigh, hlow⟩
    exact hvalue (hnone _ hitem)
  · rintro hnone ⟨key, value⟩ hitem
    obtain ⟨hmem, hhigh, hlow⟩ := (mem_newMemIterator_reversed hreverse hbounds).mp hitem
    obtain ⟨cacheValue, hcache, hdirty, rfl⟩ := mem_writes.mp (mem_dirtyItems.mp hmem)
    by_contra hvalue
    exact hnone key cacheValue hcache hdirty hvalue ⟨hlow, hhigh⟩

theorem listBottom_refusesReversed : listBottom.RefusesReversed := by
  refine ⟨Eq, listBottom_follows, fun content start stop hbounds => ?_⟩
  refine List.filter_eq_nil_iff.mpr fun pair _ hinside => ?_
  obtain ⟨hlow, hhigh⟩ := of_decide_eq_true hinside
  exact absurd ((hlow start rfl).trans_lt (hhigh stop rfl)) hbounds.not_gt

/-- A cache that has only deleted a key between the bounds. -/
theorem reversed_range_invalid_example :
    let cache := (∅ : KVStore Bytes CValue).insert [2] ⟨none, true, true⟩
    Invalid (stackCursor listBottom 1) ((Layers.cacheKVStore cache (.bottom ∅)).iterator
      isKeyInDomain listBottom (some [3]) (some [1]) true) := by
  intro cache
  refine (reversed_range_invalid_iff isKeyInDomain_testsReverse listBottom_refusesReversed ∅ cache
    (by decide)).mpr ?_
  intro key cacheValue hcache _ hvalue
  rw [KVStore.getElem?_insert] at hcache
  split_ifs at hcache
  · cases hcache
    exact absurd rfl hvalue
  · simp at hcache

/-- A cache over an empty store that has written the key `[2]`: the iteration from `[3]` to `[1]` yields
it. -/
theorem reversed_range_yields :
    let l := (newCacheKVStore (.bottom ∅)).set [2] [9]
    (stackCursor listBottom l.depth).drain 2
      (l.iterator isKeyInDomain listBottom (some [3]) (some [1]) true) =
        .ok (some [([2], some [9])]) := by
  decide +kernel

/-! ## The last item: `store/firstlast.go` -/

/-- `Last`, in a store with this content and what its `ReverseIterator` has to yield between two
bounds. -/
def last (content : KVStore Bytes Bytes) (reverseIterator : Bytes → Bytes → List (Bytes × Bytes))
    (start stop : Bytes) : Option (Bytes × Bytes) :=
  match reverseIterator stop start with
  | [] => content[start]?.map fun value => (start, value)
  | pair :: pairs => if pair.1 = stop then pairs.head? else some pair

/-- The pair with the greatest key in the range, which is open at its end. -/
structure IsLast (content : KVStore Bytes Bytes) (start stop : Bytes) (pair : Bytes × Bytes) :
    Prop where
  stored : content[pair.1]? = some pair.2
  low : start ≤ pair.1
  high : pair.1 < stop
  greatest : ∀ key value, content[key]? = some value → start ≤ key → key < stop → key ≤ pair.1

section Last

variable {content : KVStore Bytes Bytes} {start stop : Bytes} {pair : Bytes × Bytes}

/-- The last pair is the first one of those between the bounds from above, or that of `start`. -/
theorem isLast_iff {inner : List (Bytes × Bytes)} (hbounds : start < stop)
    (hinner : Lists (Before false) (fun key => start < key ∧ key < stop) content inner) :
    IsLast content start stop pair ↔
      inner.head?.or (content[start]?.map fun value => (start, value)) = some pair := by
  have hmem := hinner.mem_iff
  obtain ⟨key, value⟩ := pair
  cases inner with
  | nil =>
    have hnone : ∀ {k v}, content[k]? = some v → start < k → ¬ k < stop := by
      intro k v hk hlow hhigh
      simpa using (hmem k v).mpr ⟨hk, hlow, hhigh⟩
    constructor
    · rintro ⟨hstored, hlow, hhigh, -⟩
      obtain rfl : key = start :=
        ((lt_or_eq_of_le hlow).resolve_left fun hlt => hnone hstored hlt hhigh).symm
      simp [hstored]
    · intro heq
      simp only [List.head?_nil, Option.none_or, Option.map_eq_some_iff, Prod.mk.injEq] at heq
      obtain ⟨_, hstored, rfl, rfl⟩ := heq
      refine ⟨hstored, le_rfl, hbounds, fun k v hk hlow hhigh => ?_⟩
      exact not_lt.mp fun hlt => hnone hk hlt hhigh
  | cons top rest =>
    obtain ⟨htop, hrest⟩ := List.pairwise_cons.mp hinner.sorted
    have hbelow : ∀ {k v}, content[k]? = some v → start < k → k < stop →
        (k, v) = top ∨ k < top.1 := by
      intro k v hk hlow hhigh
      rcases List.mem_cons.mp ((hmem k v).mpr ⟨hk, hlow, hhigh⟩) with heq | hmem
      · exact .inl heq
      · exact .inr (htop _ hmem)
    obtain ⟨hstored, hlow, hhigh⟩ := (hmem top.1 top.2).mp (by simp)
    have hlast : IsLast content start stop top := by
      refine ⟨hstored, hlow.le, hhigh, fun k v hk hlow' hhigh' => ?_⟩
      rcases lt_or_eq_of_le hlow' with hlt | rfl
      · rcases hbelow hk hlt hhigh' with rfl | hless
        · exact le_rfl
        · exact hless.le
      · exact hlow.le
    simp only [List.head?_cons, Option.some_or, Option.some.injEq]
    constructor
    · intro h
      have hle : top.1 ≤ key := h.greatest _ _ hstored hlow.le hhigh
      rcases hbelow h.stored (hlow.trans_le hle) h.high with heq | hless
      · exact heq.symm
      · exact absurd hless hle.not_gt
    · rintro rfl
      exact hlast

/-- `Last` finds the last item of a range exactly unless both bounds are in the store and nothing
between them. -/
theorem last_exact_iff {reverseIterator : Bytes → Bytes → List (Bytes × Bytes)}
    (hbounds : start < stop) (hreverse : Lists (Before false) (fun key => start < key ∧ key ≤ stop)
      content (reverseIterator stop start)) :
    (∀ pair, last content reverseIterator start stop = some pair ↔ IsLast content start stop pair) ↔
      ¬ (content[start]? ≠ none ∧ content[stop]? ≠ none ∧
        ∀ key, start < key → key < stop → content[key]? = none) := by
  unfold last
  have hmem := hreverse.mem_iff
  have hsorted := hreverse.sorted
  generalize reverseIterator stop start = pairs at hmem hsorted
  -- without `stop` itself the iterator yields what is between the bounds
  have hinner : ∀ inner : List (Bytes × Bytes),
      (∀ pair, pair ∈ inner ↔ pair ∈ pairs ∧ pair.1 ≠ stop) →
      inner.Pairwise (OnKeys (Before false)) →
      ∀ pair, IsLast content start stop pair ↔
        inner.head?.or (content[start]?.map fun value => (start, value)) = some pair := by
    intro inner hin hinner pair
    refine isLast_iff hbounds ⟨hinner, fun k v => ?_⟩
    rw [hin, hmem]
    constructor
    · rintro ⟨⟨hk, hlow, hhigh⟩, hne⟩
      exact ⟨hk, hlow, lt_of_le_of_ne hhigh hne⟩
    · rintro ⟨hk, hlow, hhigh⟩
      exact ⟨⟨hk, hlow, hhigh.le⟩, hhigh.ne⟩
  cases pairs with
  | nil =>
    refine iff_of_true (fun pair => ((hinner [] (by simp) .nil pair).symm)) ?_
    rintro ⟨-, hstop, -⟩
    obtain ⟨value, hvalue⟩ := Option.ne_none_iff_exists'.mp hstop
    simpa using (hmem stop value).mpr ⟨hvalue, hbounds, le_rfl⟩
  | cons top rest =>
    obtain ⟨htop, hrest⟩ := List.pairwise_cons.mp hsorted
    have hbelow : ∀ pair ∈ rest, pair.1 < top.1 := htop
    obtain ⟨hstored, hlow, hhigh⟩ := (hmem top.1 top.2).mp (by simp)
    by_cases heq : top.1 = stop
    · have hlast := hinner rest (by
        intro pair
        rw [List.mem_cons]
        constructor
        · intro hpair
          exact ⟨.inr hpair, ((hbelow pair hpair).trans_le hhigh).ne⟩
        · rintro ⟨rfl | hpair, hne⟩
          · exact absurd heq hne
          · exact hpair) hrest
      simp only [if_pos heq, hlast]
      cases rest with
      | nil =>
        have hbetween : ∀ key, start < key → key < stop → content[key]? = none := by
          intro key hlow' hhigh'
          by_contra hsome
          obtain ⟨value, hvalue⟩ := Option.ne_none_iff_exists'.mp hsome
          have hpair := (hmem key value).mpr ⟨hvalue, hlow', hhigh'.le⟩
          rw [List.mem_singleton] at hpair
          rw [← hpair] at heq
          exact hhigh'.ne heq
        rw [← heq, hstored, heq]
        cases content[start]? with
        | none => simp
        | some value => simpa using hbetween
      | cons next rest =>
        refine iff_of_true (by simp) ?_
        rintro ⟨-, -, hnone⟩
        obtain ⟨hnext, hlow', -⟩ := (hmem next.1 next.2).mp (by simp)
        rw [hnone next.1 hlow' (heq ▸ hbelow next (by simp))] at hnext
        cases hnext
    · have hne : ∀ pair ∈ top :: rest, pair.1 ≠ stop := by
        rw [List.forall_mem_cons]
        exact ⟨heq, fun pair hpair => ((hbelow pair hpair).trans_le hhigh).ne⟩
      have hlast := hinner (top :: rest) (fun pair => (and_iff_left_of_imp (hne pair)).symm) hsorted
      simp only [if_neg heq, hlast]
      refine iff_of_true (by simp) ?_
      rintro ⟨-, hstop, -⟩
      obtain ⟨value, hvalue⟩ := Option.ne_none_iff_exists'.mp hstop
      exact hne _ ((hmem stop value).mpr ⟨hvalue, hbounds, le_rfl⟩) rfl

end Last

/-- The pairs of a content above a bound and up to another, from above. -/
def pairsBelow (content : KVStore Bytes Bytes) (start stop : Bytes) : List (Bytes × Bytes) :=
  content.descending.filter fun pair => stop < pair.1 ∧ pair.1 ≤ start

theorem lists_pairsBelow (content : KVStore Bytes Bytes) (start stop : Bytes) :
    Lists (Before false) (fun key => stop < key ∧ key ≤ start) content
      (pairsBelow content start stop) where
  sorted := (KVStore.descending_pairwise content).filter _
  mem_iff k v := by simp [pairsBelow, KVStore.mem_descending]

theorem last_exact_iff_example :
    let content := ((∅ : KVStore Bytes Bytes).insert [2] [7]).insert [3] [8]
    ∀ pair, last content (pairsBelow content) [1] [3] = some pair ↔ IsLast content [1] [3] pair := by
  intro content
  refine (last_exact_iff (by decide) (lists_pairsBelow content [3] [1])).mpr ?_
  rintro ⟨hstart, -⟩
  exact hstart (by decide)

/-- The bounds are the only keys: `start` is not found. -/
theorem last_misses_start :
    let content := ((∅ : KVStore Bytes Bytes).insert [1] [7]).insert [3] [8]
    last content (pairsBelow content) [1] [3] = none ∧ IsLast content [1] [3] ([1], [7]) := by
  intro content
  refine ⟨by decide +kernel, ⟨by decide, le_rfl, by decide, fun key value hkey _ hhigh => ?_⟩⟩
  simp only [content, KVStore.getElem?_insert] at hkey
  split_ifs at hkey with hthree hone
  · exact absurd hhigh (by rw [← hthree]; exact lt_irrefl _)
  · exact hone.ge
  · simp at hkey

end Tepleton.Store
