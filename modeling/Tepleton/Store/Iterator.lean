import Tepleton.Lib.Cursor
import Tepleton.Lib.Digits
import Tepleton.Store.CacheKV

/-!
# Iteration over cache stores: `store/memiterator.go`, `store/cachemergeiterator.go`

A `cacheMergeIterator` walks the iterator of the store below and the sorted dirty items of the cache
at once.  Over a stack of caches these iterators are nested as deep as the stack, so each method of
one calls the methods of the next.  The store at the bottom comes with its own iterator.

The iterator of a stack yields the entries of its content inside the bounds, upwards or downwards.
Each method first skips to the next pair that exists; what every step of this skipping keeps is the
merge of the two lists of pairs that are still to come.
-/

namespace Tepleton.Store

open Lib

/-- The calls of `panic` in the iterators. -/
inductive IteratorPanic
  | memIteratorInvalid
  | iteratorInvalid
  | indexOutOfRange
  | sliceBoundsOutOfRange
  deriving DecidableEq, Repr

/-! ## Items of a cache -/

def dirtyItems (cache : KVStore Bytes CValue) (ascending : Bool) : List (Bytes × Option Bytes) :=
  if ascending then writes cache else (writes cache).reverse

/-- `bytes.Compare`. -/
def bytesCompare (a b : Bytes) : Ordering :=
  if a < b then .lt else if a = b then .eq else .gt

/-- `keyCompare`: `bytes.Compare` but bounded on both sides by nil. -/
def keyCompare : Option Bytes → Option Bytes → Ordering
  | none, none => .eq
  | none, some _ => .lt
  | some _, none => .lt
  | some k₁, some k₂ => bytesCompare k₁ k₂

/-- `dbm.IsKeyInDomain`: the key, the bounds and whether the iteration is a reverse one. -/
abbrev DomainTest := Bytes → Option Bytes → Option Bytes → Bool → Bool

/-- `newMemIterator`: the items still to come.  Its bounds are only read by `Domain`. -/
def newMemIterator (isKeyInDomain : DomainTest) (start stop : Option Bytes)
    (items : List (Bytes × Option Bytes)) : List (Bytes × Option Bytes) :=
  items.filter fun item =>
    let ascending := keyCompare start stop == .lt
    isKeyInDomain item.1 start stop !ascending

/-- `memIterator.Key`. -/
def memKey : List (Bytes × Option Bytes) → Except IteratorPanic Bytes
  | [] => .error .memIteratorInvalid
  | (key, _) :: _ => .ok key

/-- `memIterator.Value`. -/
def memValue : List (Bytes × Option Bytes) → Except IteratorPanic (Option Bytes)
  | [] => .error .memIteratorInvalid
  | (_, value) :: _ => .ok value

/-- `memIterator.Next`. -/
def memNext : List (Bytes × Option Bytes) → Except IteratorPanic (List (Bytes × Option Bytes))
  | [] => .error .memIteratorInvalid
  | _ :: items => .ok items

/-! ## Merging -/

structure CacheMergeIterator (ι : Type) where
  parent : ι
  cache : List (Bytes × Option Bytes)
  ascending : Bool

/-- `cacheMergeIterator.compare`. -/
def compareKeys (ascending : Bool) (a b : Bytes) : Ordering :=
  if ascending then bytesCompare a b else (bytesCompare a b).swap

/-- The order of the iteration. -/
def Before (ascending : Bool) (a b : Bytes) : Prop := if ascending then a < b else b < a

instance (ascending : Bool) : DecidableRel (Before ascending) := fun a b =>
  inferInstanceAs (Decidable (if ascending then a < b else b < a))

instance (ascending : Bool) : IsStrictTotalOrder Bytes (Before ascending) := by
  cases ascending with
  | true => exact inferInstanceAs (IsStrictTotalOrder Bytes (· < ·))
  | false => exact inferInstanceAs (IsStrictTotalOrder Bytes (· > ·))

variable {a b : Bytes} {start stop : Option Bytes}

theorem bytesCompare_eq_lt_iff : bytesCompare a b = .lt ↔ a < b := by
  unfold bytesCompare
  split_ifs <;> simp_all

theorem bytesCompare_eq_gt_iff : bytesCompare a b = .gt ↔ b < a := by
  unfold bytesCompare
  split_ifs with hlt heq
  · simpa using hlt.le
  · simp [heq]
  · simpa using lt_of_le_of_ne (not_lt.mp hlt) (Ne.symm heq)

theorem compareKeys_eq_lt_iff {ascending : Bool} :
    compareKeys ascending a b = .lt ↔ Before ascending a b := by
  cases ascending with
  | true => simp [compareKeys, Before, bytesCompare_eq_lt_iff]
  | false => simp [compareKeys, Before, bytesCompare_eq_gt_iff]

theorem compareKeys_eq_gt_iff {ascending : Bool} :
    compareKeys ascending a b = .gt ↔ Before ascending b a := by
  cases ascending with
  | true => simp [compareKeys, Before, bytesCompare_eq_gt_iff]
  | false => simp [compareKeys, Before, bytesCompare_eq_lt_iff]

theorem compareKeys_self (ascending : Bool) (key : Bytes) : compareKeys ascending key key = .eq := by
  cases ascending with
  | true => simp [compareKeys, bytesCompare]
  | false => simp [compareKeys, bytesCompare]

def skipCacheDeletes (ascending : Bool) (until? : Option Bytes) :
    List (Bytes × Option Bytes) → List (Bytes × Option Bytes) :=
  List.dropWhile fun item =>
    item.2.isNone && until?.all fun limit => compareKeys ascending item.1 limit == .lt

theorem skipCacheDeletes_cons {ascending : Bool} {limit key : Bytes}
    {items : List (Bytes × Option Bytes)} (h : Before ascending key limit) :
    skipCacheDeletes ascending (some limit) ((key, none) :: items) =
      skipCacheDeletes ascending (some limit) items := by
  have hlt := compareKeys_eq_lt_iff.mpr h
  simp [skipCacheDeletes, hlt]

theorem length_skipCacheDeletes_le (ascending : Bool) (until? : Option Bytes)
    (items : List (Bytes × Option Bytes)) :
    (skipCacheDeletes ascending until? items).length ≤ items.length :=
  (List.dropWhile_suffix _).length_le

namespace CacheMergeIterator

variable {ι : Type} (c : Cursor IteratorPanic ι Bytes Bytes)

def skipUntilExistsOrInvalid (ascending : Bool) (parent : ι) (cache : List (Bytes × Option Bytes)) :
    Except IteratorPanic (Bool × CacheMergeIterator ι) := do
  let (parentValid, parent) ← c.valid parent
  if !parentValid then
    let cache := skipCacheDeletes ascending none cache
    return (!cache.isEmpty, ⟨parent, cache, ascending⟩)
  else
    match cache with
    | [] => return (true, ⟨parent, [], ascending⟩)
    | (keyC, valueC) :: rest =>
      let (keyP, parent) ← c.key parent
      match _hcompare : compareKeys ascending keyP keyC, valueC with
      | .lt, valueC => return (true, ⟨parent, (keyC, valueC) :: rest, ascending⟩)
      | .eq, some value => return (true, ⟨parent, (keyC, some value) :: rest, ascending⟩)
      | .eq, none =>
        let parent ← c.next parent
        skipUntilExistsOrInvalid ascending parent rest
      | .gt, some value => return (true, ⟨parent, (keyC, some value) :: rest, ascending⟩)
      | .gt, none =>
        skipUntilExistsOrInvalid ascending parent
          (skipCacheDeletes ascending (some keyP) ((keyC, none) :: rest))
termination_by cache.length
decreasing_by
  · simp
  · rw [skipCacheDeletes_cons (compareKeys_eq_gt_iff.mp _hcompare)]
    exact Nat.lt_succ_of_le (length_skipCacheDeletes_le _ _ _)

/-- `assertValid`, after the skipping that every method begins with. -/
def skipAndAssertValid (iter : CacheMergeIterator ι) :
    Except IteratorPanic (CacheMergeIterator ι) := do
  let (_, iter) ← skipUntilExistsOrInvalid c iter.ascending iter.parent iter.cache
  let (valid, iter) ← skipUntilExistsOrInvalid c iter.ascending iter.parent iter.cache
  if valid then return iter else throw .iteratorInvalid

def valid (iter : CacheMergeIterator ι) : Except IteratorPanic (Bool × CacheMergeIterator ι) :=
  skipUntilExistsOrInvalid c iter.ascending iter.parent iter.cache

def key (iter : CacheMergeIterator ι) : Except IteratorPanic (Bytes × CacheMergeIterator ι) := do
  let iter ← skipAndAssertValid c iter
  let (parentValid, parent) ← c.valid iter.parent
  if !parentValid then return (← memKey iter.cache, { iter with parent })
  else if iter.cache.isEmpty then
    let (key, parent) ← c.key parent
    return (key, { iter with parent })
  else
    let (keyP, parent) ← c.key parent
    let keyC ← memKey iter.cache
    match compareKeys iter.ascending keyP keyC with
    | .lt => return (keyP, { iter with parent })
    | .eq => return (keyP, { iter with parent })
    | .gt => return (keyC, { iter with parent })

def value (iter : CacheMergeIterator ι) :
    Except IteratorPanic (Option Bytes × CacheMergeIterator ι) := do
  let iter ← skipAndAssertValid c iter
  let (parentValid, parent) ← c.valid iter.parent
  if !parentValid then return (← memValue iter.cache, { iter with parent })
  else if iter.cache.isEmpty then
    let (value, parent) ← c.value parent
    return (value, { iter with parent })
  else
    let (keyP, parent) ← c.key parent
    let keyC ← memKey iter.cache
    match compareKeys iter.ascending keyP keyC with
    | .lt =>
      let (value, parent) ← c.value parent
      return (value, { iter with parent })
    | .eq => return (← memValue iter.cache, { iter with parent })
    | .gt => return (← memValue iter.cache, { iter with parent })

def next (iter : CacheMergeIterator ι) : Except IteratorPanic (CacheMergeIterator ι) := do
  let iter ← skipAndAssertValid c iter
  let (parentValid, parent) ← c.valid iter.parent
  if !parentValid then
    let cache ← memNext iter.cache
    return { iter with parent, cache }
  else if iter.cache.isEmpty then
    let parent ← c.next parent
    return { iter with parent }
  else
    let (keyP, parent) ← c.key parent
    let keyC ← memKey iter.cache
    match compareKeys iter.ascending keyP keyC with
    | .lt =>
      let parent ← c.next parent
      return { iter with parent }
    | .eq =>
      let parent ← c.next parent
      let cache ← memNext iter.cache
      return { iter with parent, cache }
    | .gt =>
      let cache ← memNext iter.cache
      return { iter with parent, cache }

/-- `cacheMergeIterator` as an iterator. -/
def cursor : Cursor IteratorPanic (CacheMergeIterator ι) Bytes Bytes where
  valid := valid c
  key := key c
  value := value c
  next := next c

/-! ## What skipping keeps -/

variable {c} {R : ι → List (Bytes × Bytes) → Prop} {ascending : Bool} {parent parent₁ parent₂ : ι}
  {pairs todo : List (Bytes × Bytes)} {cache rest : List (Bytes × Option Bytes)}
  {keyP keyC k v : Bytes} {iter : CacheMergeIterator ι}

/-- The pairs an iterator still has to yield when its parent has `pairs` to yield. -/
def merged (ascending : Bool) : List (Bytes × Bytes) → List (Bytes × Option Bytes) →
    List (Bytes × Bytes) :=
  mergeWrites (Before ascending)

/-- The next pair exists: the cache stands neither at a deletion before the next pair of the parent
nor at one that shadows it. -/
def Settled (ascending : Bool) : List (Bytes × Bytes) → List (Bytes × Option Bytes) → Prop
  | _, [] => True
  | [], (_, value) :: _ => value.isSome
  | (keyP, _) :: _, (keyC, value) :: _ => Before ascending keyP keyC ∨ value.isSome

theorem merged_skip_none (ascending : Bool) (cache : List (Bytes × Option Bytes)) :
    merged ascending [] (skipCacheDeletes ascending none cache) = merged ascending [] cache ∧
      Settled ascending [] (skipCacheDeletes ascending none cache) := by
  induction cache with
  | nil => exact ⟨rfl, trivial⟩
  | cons item rest ih =>
    obtain ⟨key, value⟩ := item
    cases value with
    | none =>
      have hskip : skipCacheDeletes ascending none ((key, none) :: rest) =
          skipCacheDeletes ascending none rest := rfl
      have hmerged : merged ascending [] ((key, none) :: rest) = merged ascending [] rest := by
        simp [merged, mergeWrites]
      rw [hskip, hmerged]
      exact ih
    | some value => exact ⟨rfl, rfl⟩

theorem merged_skip_some (ascending : Bool) (keyP valueP : Bytes) (pairs : List (Bytes × Bytes))
    (cache : List (Bytes × Option Bytes)) :
    merged ascending ((keyP, valueP) :: pairs) (skipCacheDeletes ascending (some keyP) cache) =
      merged ascending ((keyP, valueP) :: pairs) cache := by
  induction cache with
  | nil => rfl
  | cons item rest ih =>
    obtain ⟨key, value⟩ := item
    by_cases hskip : value = none ∧ Before ascending key keyP
    · obtain ⟨rfl, hbefore⟩ := hskip
      rw [skipCacheDeletes_cons hbefore, ih, merged, mergeWrites,
        if_neg (asymm_of (Before ascending) hbefore), if_pos hbefore]
      rfl
    · have hstop : skipCacheDeletes ascending (some keyP) ((key, value) :: rest) =
          (key, value) :: rest := by
        refine List.dropWhile_cons_of_neg ?_
        intro htest
        simp only [Bool.and_eq_true, Option.isNone_iff_eq_none, Option.all_some, beq_iff_eq] at htest
        exact hskip ⟨htest.1, compareKeys_eq_lt_iff.mp htest.2⟩
      rw [hstop]

theorem skip_of_parent_invalid (cache : List (Bytes × Option Bytes))
    (hvalid : c.valid parent = .ok (false, parent₁)) :
    skipUntilExistsOrInvalid c ascending parent cache =
      .ok (!(skipCacheDeletes ascending none cache).isEmpty,
        ⟨parent₁, skipCacheDeletes ascending none cache, ascending⟩) := by
  rw [skipUntilExistsOrInvalid, hvalid]
  rfl

theorem skip_of_cache_invalid (hvalid : c.valid parent = .ok (true, parent₁)) :
    skipUntilExistsOrInvalid c ascending parent [] = .ok (true, ⟨parent₁, [], ascending⟩) := by
  rw [skipUntilExistsOrInvalid, hvalid]
  rfl

theorem skip_of_stop {valueC : Option Bytes} (hvalid : c.valid parent = .ok (true, parent₁))
    (hkey : c.key parent₁ = .ok (keyP, parent₂)) (hstop : Before ascending keyP keyC ∨ valueC.isSome) :
    skipUntilExistsOrInvalid c ascending parent ((keyC, valueC) :: rest) =
      .ok (true, ⟨parent₂, (keyC, valueC) :: rest, ascending⟩) := by
  rw [skipUntilExistsOrInvalid, hvalid]
  simp only [bind, Except.bind, Bool.not_true, Bool.false_eq_true, if_false, hkey]
  rw [← compareKeys_eq_lt_iff] at hstop
  split
  · rfl
  · rfl
  · simp_all
  · rfl
  · simp_all

theorem skip_of_shadowed {parent₃ : ι} (hvalid : c.valid parent = .ok (true, parent₁))
    (hkey : c.key parent₁ = .ok (k, parent₂)) (hnext : c.next parent₂ = .ok parent₃) :
    skipUntilExistsOrInvalid c ascending parent ((k, none) :: rest) =
      skipUntilExistsOrInvalid c ascending parent₃ rest := by
  rw [skipUntilExistsOrInvalid, hvalid]
  simp only [bind, Except.bind, Bool.not_true, Bool.false_eq_true, if_false, hkey]
  have hself := compareKeys_self ascending k
  split
  all_goals simp_all

theorem skip_of_deletes (hvalid : c.valid parent = .ok (true, parent₁))
    (hkey : c.key parent₁ = .ok (keyP, parent₂)) (hbefore : Before ascending keyC keyP) :
    skipUntilExistsOrInvalid c ascending parent ((keyC, none) :: rest) =
      skipUntilExistsOrInvalid c ascending parent₂
        (skipCacheDeletes ascending (some keyP) ((keyC, none) :: rest)) := by
  rw [skipUntilExistsOrInvalid, hvalid]
  simp only [bind, Except.bind, Bool.not_true, Bool.false_eq_true, if_false, hkey]
  have hgt := compareKeys_eq_gt_iff.mpr hbefore
  split
  all_goals simp_all

theorem isEmpty_merged (h : Settled ascending pairs cache) :
    (merged ascending pairs cache).isEmpty = (pairs.isEmpty && cache.isEmpty) := by
  match pairs, cache with
  | [], [] => rw [merged, mergeWrites]; rfl
  | _ :: _, [] => rw [merged, mergeWrites]; rfl
  | [], (key, some value) :: rest => rw [merged, mergeWrites]; rfl
  | (keyP, valueP) :: pairs, (keyC, value) :: rest =>
    rw [merged, mergeWrites]
    split_ifs with hlt hgt
    · rfl
    · obtain ⟨v, rfl⟩ := Option.isSome_iff_exists.mp (h.resolve_left hlt)
      rfl
    · obtain ⟨v, rfl⟩ := Option.isSome_iff_exists.mp (h.resolve_left hlt)
      rfl

/-- Skipping ends, says whether a pair is left, and keeps what is still to come. -/
theorem skipUntilExistsOrInvalid_spec (hc : c.Follows R) (ascending : Bool)
    (cache : List (Bytes × Option Bytes)) (hR : R parent pairs) :
    ∃ parent' pairs' cache', skipUntilExistsOrInvalid c ascending parent cache =
        .ok (!(merged ascending pairs cache).isEmpty, ⟨parent', cache', ascending⟩) ∧
      R parent' pairs' ∧ merged ascending pairs' cache' = merged ascending pairs cache ∧
      Settled ascending pairs' cache' := by
  -- every round that does not stop makes the list of cache items shorter
  induction hn : cache.length using Nat.strong_induction_on generalizing parent pairs cache with
  | h n ih =>
    obtain ⟨parent₁, hvalid, hR₁⟩ := hc.valid hR
    match pairs, cache with
    | [], cache =>
      obtain ⟨hmerged, hsettled⟩ := merged_skip_none ascending cache
      refine ⟨parent₁, [], skipCacheDeletes ascending none cache, ?_, hR₁, hmerged, hsettled⟩
      rw [skip_of_parent_invalid cache hvalid, ← hmerged, isEmpty_merged hsettled]
      rfl
    | (keyP, valueP) :: pairs, [] =>
      refine ⟨parent₁, (keyP, valueP) :: pairs, [], ?_, hR₁, rfl, trivial⟩
      rw [skip_of_cache_invalid hvalid, merged, mergeWrites]
      rfl
    | (keyP, valueP) :: pairs, (keyC, valueC) :: rest =>
      obtain ⟨parent₂, hkey, hR₂⟩ := hc.key hR₁
      by_cases hstop : Before ascending keyP keyC ∨ valueC.isSome
      · have hsettled : Settled ascending ((keyP, valueP) :: pairs) ((keyC, valueC) :: rest) :=
          hstop
        refine ⟨parent₂, _, _, ?_, hR₂, rfl, hsettled⟩
        rw [skip_of_stop hvalid hkey hstop, isEmpty_merged hsettled]
        rfl
      · obtain ⟨hlt, hnone⟩ := not_or.mp hstop
        obtain rfl := Option.not_isSome_iff_eq_none.mp hnone
        by_cases hgt : Before ascending keyC keyP
        · have hshort : (skipCacheDeletes ascending (some keyP) ((keyC, none) :: rest)).length < n := by
            rw [skipCacheDeletes_cons hgt, ← hn]
            exact Nat.lt_succ_of_le (length_skipCacheDeletes_le _ _ _)
          have hrest := ih _ hshort _ hR₂ rfl
          rwa [merged_skip_some, ← skip_of_deletes hvalid hkey hgt] at hrest
        · obtain rfl := eq_of_neither hlt hgt
          obtain ⟨parent₃, hnext, hR₃⟩ := hc.next hR₂
          have hmerged : merged ascending ((keyP, valueP) :: pairs) ((keyP, none) :: rest) =
              merged ascending pairs rest := by
            rw [merged, mergeWrites, if_neg hlt, if_neg hgt]
            rfl
          rw [hmerged, skip_of_shadowed hvalid hkey hnext]
          exact ih rest.length (by rw [← hn]; simp) rest hR₃ rfl

/-- The relation between an iterator and what it still has to yield, from that of its parent. -/
def Yet (R : ι → List (Bytes × Bytes) → Prop) (iter : CacheMergeIterator ι)
    (todo : List (Bytes × Bytes)) : Prop :=
  ∃ pairs, R iter.parent pairs ∧ merged iter.ascending pairs iter.cache = todo

theorem skipAndAssertValid_spec (hc : c.Follows R) {pair : Bytes × Bytes}
    (h : Yet R iter (pair :: todo)) :
    ∃ parent pairs cache, skipAndAssertValid c iter = .ok ⟨parent, cache, iter.ascending⟩ ∧
      R parent pairs ∧ merged iter.ascending pairs cache = pair :: todo ∧
      Settled iter.ascending pairs cache := by
  obtain ⟨pairs, hR, hmerged⟩ := h
  obtain ⟨parent₁, pairs₁, cache₁, hskip₁, hR₁, hmerged₁, -⟩ :=
    skipUntilExistsOrInvalid_spec hc iter.ascending iter.cache hR
  obtain ⟨parent₂, pairs₂, cache₂, hskip₂, hR₂, hmerged₂, hsettled⟩ :=
    skipUntilExistsOrInvalid_spec hc iter.ascending cache₁ hR₁
  have htodo := hmerged₁.trans hmerged
  refine ⟨parent₂, pairs₂, cache₂, ?_, hR₂, hmerged₂.trans htodo, hsettled⟩
  rw [htodo] at hskip₂
  rw [skipAndAssertValid, hskip₁]
  simp only [bind, Except.bind, hskip₂]
  rfl

/-- Where the next pair comes from: `todo` is what comes after it. -/
inductive Front (ascending : Bool) (key value : Bytes) (todo : List (Bytes × Bytes)) :
    List (Bytes × Bytes) → List (Bytes × Option Bytes) → Prop
  | parentInvalid {rest : List (Bytes × Option Bytes)} :
      merged ascending [] rest = todo → Front ascending key value todo [] ((key, some value) :: rest)
  | cacheInvalid {pairs : List (Bytes × Bytes)} :
      merged ascending pairs [] = todo → Front ascending key value todo ((key, value) :: pairs) []
  | parent {pairs : List (Bytes × Bytes)} {item : Bytes × Option Bytes}
      {rest : List (Bytes × Option Bytes)} :
      Before ascending key item.1 → merged ascending pairs (item :: rest) = todo →
      Front ascending key value todo ((key, value) :: pairs) (item :: rest)
  | both {valueP : Bytes} {pairs : List (Bytes × Bytes)} {rest : List (Bytes × Option Bytes)} :
      merged ascending pairs rest = todo →
      Front ascending key value todo ((key, valueP) :: pairs) ((key, some value) :: rest)
  | cache {pair : Bytes × Bytes} {pairs : List (Bytes × Bytes)}
      {rest : List (Bytes × Option Bytes)} :
      Before ascending key pair.1 → merged ascending (pair :: pairs) rest = todo →
      Front ascending key value todo (pair :: pairs) ((key, some value) :: rest)

theorem Settled.front (h : Settled ascending pairs cache)
    (hmerged : merged ascending pairs cache = (k, v) :: todo) :
    Front ascending k v todo pairs cache := by
  match pairs, cache with
  | [], [] =>
    rw [merged, mergeWrites] at hmerged
    cases hmerged
  | pair :: pairs, [] =>
    rw [merged, mergeWrites] at hmerged
    cases hmerged
    exact .cacheInvalid (by rw [merged, mergeWrites])
  | [], (keyC, some valueC) :: rest =>
    rw [merged, mergeWrites] at hmerged
    cases hmerged
    exact .parentInvalid rfl
  | (keyP, valueP) :: pairs, (keyC, x) :: rest =>
    rw [merged, mergeWrites] at hmerged
    split_ifs at hmerged with hlt hgt
    · cases hmerged
      exact .parent hlt rfl
    · obtain ⟨valueC, rfl⟩ := Option.isSome_iff_exists.mp (h.resolve_left hlt)
      cases hmerged
      exact .cache hgt rfl
    · obtain ⟨valueC, rfl⟩ := Option.isSome_iff_exists.mp (h.resolve_left hlt)
      obtain rfl := eq_of_neither hlt hgt
      cases hmerged
      exact .both rfl

theorem key_spec (hc : c.Follows R) (h : Yet R iter ((k, v) :: todo)) :
    ∃ iter', key c iter = .ok (k, iter') ∧ Yet R iter' ((k, v) :: todo) := by
  obtain ⟨parent, pairs, cache, hskip, hR, hmerged, hsettled⟩ := skipAndAssertValid_spec hc h
  obtain ⟨parent₁, hvalid, hR₁⟩ := hc.valid hR
  rw [key, hskip]
  simp only [bind, Except.bind, pure, Except.pure, hvalid]
  cases hsettled.front hmerged with
  | parentInvalid => exact ⟨_, rfl, _, hR₁, hmerged⟩
  | cacheInvalid =>
    obtain ⟨parent₂, hkey, hR₂⟩ := hc.key hR₁
    refine ⟨⟨parent₂, [], iter.ascending⟩, ?_, _, hR₂, hmerged⟩
    simp [hkey]
  | parent hlt =>
    obtain ⟨parent₂, hkey, hR₂⟩ := hc.key hR₁
    refine ⟨⟨parent₂, _, iter.ascending⟩, ?_, _, hR₂, hmerged⟩
    simp [hkey, memKey, compareKeys_eq_lt_iff.mpr hlt]
  | both =>
    obtain ⟨parent₂, hkey, hR₂⟩ := hc.key hR₁
    refine ⟨⟨parent₂, _, iter.ascending⟩, ?_, _, hR₂, hmerged⟩
    simp [hkey, memKey, compareKeys_self]
  | cache hgt =>
    obtain ⟨parent₂, hkey, hR₂⟩ := hc.key hR₁
    refine ⟨⟨parent₂, _, iter.ascending⟩, ?_, _, hR₂, hmerged⟩
    simp [hkey, memKey, compareKeys_eq_gt_iff.mpr hgt]

theorem value_spec (hc : c.Follows R) (h : Yet R iter ((k, v) :: todo)) :
    ∃ iter', value c iter = .ok (some v, iter') ∧ Yet R iter' ((k, v) :: todo) := by
  obtain ⟨parent, pairs, cache, hskip, hR, hmerged, hsettled⟩ := skipAndAssertValid_spec hc h
  obtain ⟨parent₁, hvalid, hR₁⟩ := hc.valid hR
  rw [value, hskip]
  simp only [bind, Except.bind, pure, Except.pure, hvalid]
  cases hsettled.front hmerged with
  | parentInvalid => exact ⟨_, rfl, _, hR₁, hmerged⟩
  | cacheInvalid =>
    obtain ⟨parent₂, hvalue, hR₂⟩ := hc.value hR₁
    refine ⟨⟨parent₂, [], iter.ascending⟩, ?_, _, hR₂, hmerged⟩
    simp [hvalue]
  | parent hlt =>
    obtain ⟨parent₂, hkey, hR₂⟩ := hc.key hR₁
    obtain ⟨parent₃, hvalue, hR₃⟩ := hc.value hR₂
    refine ⟨⟨parent₃, _, iter.ascending⟩, ?_, _, hR₃, hmerged⟩
    simp [hkey, memKey, compareKeys_eq_lt_iff.mpr hlt, hvalue]
  | both =>
    obtain ⟨parent₂, hkey, hR₂⟩ := hc.key hR₁
    refine ⟨⟨parent₂, _, iter.ascending⟩, ?_, _, hR₂, hmerged⟩
    simp [hkey, memKey, memValue, compareKeys_self]
  | cache hgt =>
    obtain ⟨parent₂, hkey, hR₂⟩ := hc.key hR₁
    refine ⟨⟨parent₂, _, iter.ascending⟩, ?_, _, hR₂, hmerged⟩
    simp [hkey, memKey, memValue, compareKeys_eq_gt_iff.mpr hgt]

theorem next_spec (hc : c.Follows R) (h : Yet R iter ((k, v) :: todo)) :
    ∃ iter', next c iter = .ok iter' ∧ Yet R iter' todo := by
  obtain ⟨parent, pairs, cache, hskip, hR, hmerged, hsettled⟩ := skipAndAssertValid_spec hc h
  obtain ⟨parent₁, hvalid, hR₁⟩ := hc.valid hR
  rw [next, hskip]
  simp only [bind, Except.bind, pure, Except.pure, hvalid]
  cases hsettled.front hmerged with
  | parentInvalid htodo => exact ⟨_, rfl, _, hR₁, htodo⟩
  | cacheInvalid htodo =>
    obtain ⟨parent₂, hnext, hR₂⟩ := hc.next hR₁
    refine ⟨⟨parent₂, [], iter.ascending⟩, ?_, _, hR₂, htodo⟩
    simp [hnext]
  | parent hlt htodo =>
    obtain ⟨parent₂, hkey, hR₂⟩ := hc.key hR₁
    obtain ⟨parent₃, hnext, hR₃⟩ := hc.next hR₂
    refine ⟨⟨parent₃, _, iter.ascending⟩, ?_, _, hR₃, htodo⟩
    simp [hkey, memKey, compareKeys_eq_lt_iff.mpr hlt, hnext]
  | both htodo =>
    obtain ⟨parent₂, hkey, hR₂⟩ := hc.key hR₁
    obtain ⟨parent₃, hnext, hR₃⟩ := hc.next hR₂
    refine ⟨⟨parent₃, _, iter.ascending⟩, ?_, _, hR₃, htodo⟩
    simp [hkey, memKey, memNext, compareKeys_self, hnext]
  | cache hgt htodo =>
    obtain ⟨parent₂, hkey, hR₂⟩ := hc.key hR₁
    refine ⟨⟨parent₂, _, iter.ascending⟩, ?_, _, hR₂, htodo⟩
    simp [hkey, memKey, memNext, compareKeys_eq_gt_iff.mpr hgt]

theorem cursor_follows (hc : c.Follows R) : (cursor c).Follows (Yet R) where
  valid := by
    rintro iter todo ⟨pairs, hR, rfl⟩
    obtain ⟨parent', pairs', cache', hskip, hR', hmerged, -⟩ :=
      skipUntilExistsOrInvalid_spec hc iter.ascending iter.cache hR
    exact ⟨_, hskip, pairs', hR', hmerged⟩
  key := key_spec hc
  value := value_spec hc
  next := next_spec hc

end CacheMergeIterator

/-! ## Iterators of a stack -/

/-- What is yielded over a content, for the bounds and the direction of an iteration. -/
abbrev Listing :=
  KVStore Bytes Bytes → Option Bytes → Option Bytes → Bool → List (Bytes × Bytes)

/-- The iterator of the bottom store: its methods, and `Iterator` or, downwards, `ReverseIterator`
over a content with its bounds. -/
structure BottomIterator (ι : Type) where
  cursor : Cursor IteratorPanic ι Bytes Bytes
  iterator : KVStore Bytes Bytes → Option Bytes → Option Bytes → Bool → ι

/-- The iterators over a stack of so many caches. -/
def StackIterator (ι : Type) : ℕ → Type
  | 0 => ι
  | depth + 1 => CacheMergeIterator (StackIterator ι depth)

variable {ι : Type}

/-- The methods of an iterator over a stack. -/
def stackCursor (bottom : BottomIterator ι) :
    (depth : ℕ) → Cursor IteratorPanic (StackIterator ι depth) Bytes Bytes
  | 0 => bottom.cursor
  | depth + 1 => CacheMergeIterator.cursor (stackCursor bottom depth)

namespace Layers

def iterator (isKeyInDomain : DomainTest) (bottom : BottomIterator ι) (start stop : Option Bytes)
    (ascending : Bool) : (l : Layers) → StackIterator ι l.depth
  | .bottom content => bottom.iterator content start stop ascending
  | .cacheKVStore cache parent =>
    { parent := parent.iterator isKeyInDomain bottom start stop ascending
      cache := newMemIterator isKeyInDomain start stop (dirtyItems cache ascending)
      ascending }

end Layers

/-- The loop of `PrefixEndBytes`, on the bytes from the last to the first. -/
def prefixEndLoop : Bytes → Except IteratorPanic (Option Bytes)
  | [] => .error .indexOutOfRange
  | last :: rest =>
    if last ≠ 255 then .ok (some ((last + 1) :: rest).reverse)
    else if rest.isEmpty then .ok none
    else prefixEndLoop rest

def prefixEndBytes : Option Bytes → Except IteratorPanic (Option Bytes)
  | none => .ok none
  | some pre => prefixEndLoop pre.reverse

def kvStoreReversePrefixIterator (isKeyInDomain : DomainTest) (bottom : BottomIterator ι)
    (l : Layers) (pre : Option Bytes) : Except IteratorPanic (StackIterator ι l.depth) := do
  let stop ← prefixEndBytes pre
  return l.iterator isKeyInDomain bottom pre stop false

/-! ## Exactness -/

/-- `start ≤ key < stop`, where a bound that is `nil` is none. -/
def InDomain (start stop : Option Bytes) (key : Bytes) : Prop :=
  (∀ low ∈ start, low ≤ key) ∧ ∀ high ∈ stop, key < high

instance (start stop : Option Bytes) : DecidablePred (InDomain start stop) := fun _ =>
  inferInstanceAs (Decidable (_ ∧ _))

/-- Bounds in order, or absent. -/
def BoundsInOrder (start stop : Option Bytes) : Prop := ∀ low ∈ start, ∀ high ∈ stop, low < high

/-- What is assumed of `dbm.IsKeyInDomain`. -/
structure TestsDomain (isKeyInDomain : DomainTest) : Prop where
  forward (key : Bytes) (start stop : Option Bytes) :
    isKeyInDomain key start stop false = true ↔ InDomain start stop key
  unbounded (key : Bytes) : isKeyInDomain key none none true = true

/-- What is assumed of the bottom store: its iterator yields the entries inside the bounds in the
order of the iteration. -/
def BottomIterator.Ordered (bottom : BottomIterator ι) : Prop :=
  ∃ R, ∃ entries : Listing, bottom.cursor.Follows R ∧ ∀ content start stop ascending, BoundsInOrder start stop →
    R (bottom.iterator content start stop ascending) (entries content start stop ascending) ∧
      Lists (Before ascending) (InDomain start stop) content (entries content start stop ascending)

/-- The relation of an iterator over a stack to what it still has to yield. -/
def stackYet (R : ι → List (Bytes × Bytes) → Prop) :
    (depth : ℕ) → StackIterator ι depth → List (Bytes × Bytes) → Prop
  | 0 => R
  | depth + 1 => CacheMergeIterator.Yet (stackYet R depth)

theorem stackCursor_follows {bottom : BottomIterator ι} {R : ι → List (Bytes × Bytes) → Prop}
    (h : bottom.cursor.Follows R) (depth : ℕ) :
    (stackCursor bottom depth).Follows (stackYet R depth) := by
  induction depth with
  | zero => exact h
  | succ depth ih => exact CacheMergeIterator.cursor_follows ih

theorem keyCompare_of_boundsInOrder (h : BoundsInOrder start stop) :
    keyCompare start stop = .lt ∨ start = none ∧ stop = none := by
  match start, stop with
  | none, none => exact .inr ⟨rfl, rfl⟩
  | none, some high => exact .inl rfl
  | some low, none => exact .inl rfl
  | some low, some high => exact .inl (bytesCompare_eq_lt_iff.mpr (h low rfl high rfl))

theorem mem_newMemIterator {isKeyInDomain : DomainTest} (htest : TestsDomain isKeyInDomain)
    (hbounds : BoundsInOrder start stop)
    {items : List (Bytes × Option Bytes)} {item : Bytes × Option Bytes} :
    item ∈ newMemIterator isKeyInDomain start stop items ↔
      item ∈ items ∧ InDomain start stop item.1 := by
  rw [newMemIterator, List.mem_filter]
  rcases keyCompare_of_boundsInOrder hbounds with hlt | ⟨rfl, rfl⟩
  · simp [hlt, htest.forward]
  · simp [keyCompare, htest.unbounded, InDomain]

theorem dirtyItems_pairwise (cache : KVStore Bytes CValue) (ascending : Bool) :
    (dirtyItems cache ascending).Pairwise (OnKeys (Before ascending)) := by
  cases ascending with
  | true => exact writes_pairwise cache
  | false => exact List.pairwise_reverse.mpr (writes_pairwise cache)

theorem mem_dirtyItems {cache : KVStore Bytes CValue} {ascending : Bool}
    {item : Bytes × Option Bytes} : item ∈ dirtyItems cache ascending ↔ item ∈ writes cache := by
  cases ascending with
  | true => rfl
  | false => exact List.mem_reverse

/-- What an iterator over a stack yields, whatever the bounds, when one over the bottom store yields
`entries`. -/
def Layers.entries (isKeyInDomain : DomainTest) (entries : Listing) (start stop : Option Bytes)
    (ascending : Bool) : Layers → List (Bytes × Bytes)
  | .bottom content => entries content start stop ascending
  | .cacheKVStore cache parent =>
    mergeWrites (Before ascending) (parent.entries isKeyInDomain entries start stop ascending)
      (newMemIterator isKeyInDomain start stop (dirtyItems cache ascending))

section Entries

variable {isKeyInDomain : DomainTest} {entries : Listing} {start stop : Option Bytes}
  {ascending : Bool}

theorem stackYet_iterator (isKeyInDomain : DomainTest) {bottom : BottomIterator ι} {R : ι → List (Bytes × Bytes) → Prop}
    (hbottom : ∀ content, R (bottom.iterator content start stop ascending)
      (entries content start stop ascending)) (l : Layers) :
    stackYet R l.depth (l.iterator isKeyInDomain bottom start stop ascending)
      (l.entries isKeyInDomain entries start stop ascending) := by
  induction l with
  | bottom content => exact hbottom content
  | cacheKVStore cache parent ih => exact ⟨_, ih, rfl⟩

theorem lists_entries (htest : TestsDomain isKeyInDomain) (hbounds : BoundsInOrder start stop)
    (hbottom : ∀ content, Lists (Before ascending) (InDomain start stop) content
      (entries content start stop ascending)) (l : Layers) :
    Lists (Before ascending) (InDomain start stop) l.content
      (l.entries isKeyInDomain entries start stop ascending) := by
  induction l with
  | bottom content => exact hbottom content
  | cacheKVStore cache parent ih =>
    refine ih.mergeWrites (writes_distinct cache)
      ((dirtyItems_pairwise cache ascending).filter _) ?_
    intro key value
    have hitem := @mem_dirtyItems cache ascending (key, value)
    rw [← hitem]
    exact mem_newMemIterator htest hbounds

end Entries

theorem append_lt_prefixEnd {reversed stop : Bytes} (h : prefixEndLoop reversed = .ok (some stop))
    (tail : Bytes) : reversed.reverse ++ tail < stop := by
  induction reversed generalizing tail with
  | nil => cases h
  | cons last rest ih =>
    rw [prefixEndLoop] at h
    split_ifs at h with hlast hrest
    · cases h
      have hbyte : last < last + 1 := Fin.lt_add_one_iff.mpr (lt_of_le_of_ne (Fin.le_last last) hlast)
      rw [List.reverse_cons, List.reverse_cons, List.append_assoc]
      exact (append_lt_append_iff rfl).mpr (.inr ⟨rfl, List.cons_lt_cons_iff.mpr (.inl hbyte)⟩)
    · cases h
    · rw [List.reverse_cons, List.append_assoc]
      exact ih h _

theorem boundsInOrder_prefixEnd {pre : Option Bytes} (h : prefixEndBytes pre = .ok stop) :
    BoundsInOrder pre stop := by
  rintro low rfl high rfl
  have hlt := append_lt_prefixEnd h []
  rwa [List.reverse_reverse, List.append_nil] at hlt

theorem exists_prefixEndBytes {pre : Option Bytes} (h : pre ≠ some []) :
    ∃ stop, prefixEndBytes pre = .ok stop := by
  have hloop : ∀ reversed : Bytes, reversed ≠ [] → ∃ stop, prefixEndLoop reversed = .ok stop := by
    intro reversed
    induction reversed with
    | nil => exact fun hne => absurd rfl hne
    | cons last rest ih =>
      intro _
      rw [prefixEndLoop]
      split_ifs with hlast hrest
      · exact ⟨_, rfl⟩
      · exact ⟨_, rfl⟩
      · exact ih (by simpa using hrest)
  cases pre with
  | none => exact ⟨none, rfl⟩
  | some pre => exact hloop pre.reverse (by simpa using h)

/-- The loop over an iterator ends, and it yields exactly the entries of a content that are inside,
each once and in order. -/
def YieldsExactly (bottom : BottomIterator ι) {depth : ℕ} (iter : StackIterator ι depth)
    (order : Bytes → Bytes → Prop) (inside : Bytes → Prop) (content : KVStore Bytes Bytes) : Prop :=
  ∃ pairs, Lists order inside content pairs ∧ ∀ fuel, pairs.length < fuel →
    (stackCursor bottom depth).drain fuel iter =
      .ok (some (pairs.map fun pair => (pair.1, some pair.2)))

theorem yieldsExactly_iterator {isKeyInDomain : DomainTest} (htest : TestsDomain isKeyInDomain)
    {bottom : BottomIterator ι} (hbottom : bottom.Ordered) (l : Layers)
    (hbounds : BoundsInOrder start stop) (ascending : Bool) :
    YieldsExactly bottom (l.iterator isKeyInDomain bottom start stop ascending) (Before ascending)
      (InDomain start stop) l.content := by
  obtain ⟨R, entries, hfollows, hstart⟩ := hbottom
  have hyet := stackYet_iterator isKeyInDomain
    (fun content => (hstart content start stop ascending hbounds).1) l
  have hlists := lists_entries htest hbounds
    (fun content => (hstart content start stop ascending hbounds).2) l
  exact ⟨_, hlists, fun fuel hfuel => (stackCursor_follows hfollows l.depth).drain_eq hyet hfuel⟩

/-- Iteration over any stack of caches is exact: upwards for bounds in order or absent, downwards
without bounds or over a prefix.  With the empty prefix `PrefixEndBytes` panics. -/
theorem merged_iteration_exact {isKeyInDomain : DomainTest} (htest : TestsDomain isKeyInDomain)
    {bottom : BottomIterator ι} (hbottom : bottom.Ordered) (l : Layers) :
    (∀ start stop, BoundsInOrder start stop →
      YieldsExactly bottom (l.iterator isKeyInDomain bottom start stop true) (· < ·)
        (InDomain start stop) l.content) ∧
    YieldsExactly bottom (l.iterator isKeyInDomain bottom none none false) (· > ·)
      (InDomain none none) l.content ∧
    ∀ pre, pre ≠ some [] → ∃ stop iter, prefixEndBytes pre = .ok stop ∧
      kvStoreReversePrefixIterator isKeyInDomain bottom l pre = .ok iter ∧
      YieldsExactly bottom iter (· > ·) (InDomain pre stop) l.content := by
  refine ⟨?_, ?_, ?_⟩
  · intro start stop hbounds
    exact yieldsExactly_iterator htest hbottom l hbounds true
  · exact yieldsExactly_iterator htest hbottom l (by rintro low ⟨⟩) false
  · intro pre hpre
    obtain ⟨stop, hstop⟩ := exists_prefixEndBytes hpre
    refine ⟨stop, l.iterator isKeyInDomain bottom pre stop false, hstop, ?_,
      yieldsExactly_iterator htest hbottom l (boundsInOrder_prefixEnd hstop) false⟩
    rw [kvStoreReversePrefixIterator, hstop]
    rfl

/-! ### A store that meets the assumptions -/

/-- `dbm.IsKeyInDomain` with its bounds swapped for a reverse iteration. -/
def isKeyInDomain : DomainTest := fun key start stop isReverse =>
  if isReverse then start.all (key ≤ ·) && stop.all (· < key)
  else start.all (· ≤ key) && stop.all (key < ·)

theorem isKeyInDomain_testsDomain : TestsDomain isKeyInDomain where
  forward key start stop := by simp [isKeyInDomain, InDomain, Option.all_eq_true]
  unbounded key := rfl

/-- The iterator over a bottom store that has its entries in a list. -/
def listBottom : BottomIterator (List (Bytes × Bytes)) where
  cursor :=
    { valid := fun pairs => .ok (!pairs.isEmpty, pairs)
      key := fun pairs => (pairs.head?.map fun pair => (pair.1, pairs)).elim (.error .iteratorInvalid) .ok
      value := fun pairs =>
        (pairs.head?.map fun pair => (some pair.2, pairs)).elim (.error .iteratorInvalid) .ok
      next := fun pairs => .ok pairs.tail }
  iterator content start stop ascending :=
    (if ascending then content.toList else content.descending).filter fun pair =>
      InDomain start stop pair.1

theorem listBottom_follows : listBottom.cursor.Follows Eq := by
  refine ⟨?_, ?_, ?_, ?_⟩
  · rintro iter pairs rfl
    exact ⟨iter, rfl, rfl⟩
  · rintro iter k v pairs rfl
    exact ⟨_, rfl, rfl⟩
  · rintro iter k v pairs rfl
    exact ⟨_, rfl, rfl⟩
  · rintro iter k v pairs rfl
    exact ⟨_, rfl, rfl⟩

theorem listBottom_ordered : listBottom.Ordered := by
  refine ⟨Eq, listBottom.iterator, listBottom_follows, ?_⟩
  intro content start stop ascending _
  cases ascending with
  | true => exact ⟨rfl, lists_toList (InDomain start stop) content⟩
  | false => exact ⟨rfl, lists_descending (InDomain start stop) content⟩

/-- Over a store with two keys, a cache that deletes the first and writes one between them. -/
theorem merged_iteration_exact_example :
    let bottom := Layers.bottom (((∅ : KVStore Bytes Bytes).insert [1] [7]).insert [3] [9])
    let l := ((newCacheKVStore bottom).delete [1]).set [2] [8]
    (stackCursor listBottom l.depth).drain 3 (l.iterator isKeyInDomain listBottom none none true) =
      .ok (some [([2], some [8]), ([3], some [9])]) := by
  intro bottom l
  obtain ⟨pairs, hlists, hdrain⟩ :=
    (merged_iteration_exact isKeyInDomain_testsDomain listBottom_ordered l).1 none none
      (by rintro low ⟨⟩)
  have hentries : l.content.toList.filter (fun pair => InDomain none none pair.1) =
      [([2], [8]), ([3], [9])] := by decide +kernel
  obtain rfl := (hlists.unique (lists_toList _ _)).trans hentries
  exact hdrain 3 (by decide)

end Tepleton.Store
