import Tepleton.Lib.SubMap
import Tepleton.Store.Iterator

/-!
# Prefix stores: `store/prefixstore.go`

A `prefixStore` hands every call on to its parent with the prefix put before the keys and the bounds.
It is a store of its own, holding the part of the parent's content under the prefix: if the parent
implements a content, the prefix store implements that part of it (`prefixStore_implements`), and so on
for prefix stores of prefix stores.

`ReverseIterator` hands its start on as it is.  `mirrored_iff` says when it is the mirror image of
`Iterator` all the same.
-/

namespace Tepleton.Store

open Lib

/-! ## The code -/

/-- The methods of a `KVStore`; reading may change its state, as it does in a cache. -/
structure KVMethods (σ ι : Type) where
  get : σ → Bytes → Option Bytes × σ
  has : σ → Bytes → Bool × σ
  set : σ → Bytes → Bytes → σ
  delete : σ → Bytes → σ
  iterator : σ → Option Bytes → Option Bytes → Except IteratorPanic ι
  reverseIterator : σ → Option Bytes → Option Bytes → Except IteratorPanic ι
  cursor : Cursor IteratorPanic ι Bytes Bytes

section Code

variable {σ ι : Type}

/-- `key[len(prefix):]`. -/
def cutKey (pre key : Bytes) : Except IteratorPanic Bytes :=
  if key.length < pre.length then .error .sliceBoundsOutOfRange else .ok (key.drop pre.length)

/-- The end of an iteration over a prefix store, for its parent. -/
def prefixedEnd (pre : Bytes) : Option Bytes → Except IteratorPanic (Option Bytes)
  | none => prefixEndBytes (some pre)
  | some stop => .ok (some (pre ++ stop))

/-- `prefixStore`, with its `prefixIterator`. -/
def prefixStore (store : KVMethods σ ι) (pre : Bytes) : KVMethods σ ι where
  get s key := store.get s (pre ++ key)
  has s key := store.has s (pre ++ key)
  set s key value := store.set s (pre ++ key) value
  delete s key := store.delete s (pre ++ key)
  iterator s start stop := do
    let stop ← prefixedEnd pre stop
    store.iterator s (some (pre ++ start.getD [])) stop
  reverseIterator s start stop := do
    let stop ← prefixedEnd pre stop
    -- the start is not prefixed
    store.reverseIterator s start stop
  cursor := store.cursor.mapKey (cutKey pre)

/-- `Prefix` applied with one prefix after the other. -/
def nestedStore (store : KVMethods σ ι) (pres : List Bytes) : KVMethods σ ι :=
  pres.foldl prefixStore store

/-- A store with its content in a map, such as the IAVL store, with its own iterator. -/
def contentStore (bottom : BottomIterator ι) : KVMethods (KVStore Bytes Bytes) ι where
  get content key := (content[key]?, content)
  has content key := (content[key]?.isSome, content)
  set content key value := content.insert key value
  delete content key := content.erase key
  iterator content start stop := .ok (bottom.iterator content start stop true)
  reverseIterator content start stop := .ok (bottom.iterator content start stop false)
  cursor := bottom.cursor

end Code

/-! ## Ranges under a prefix -/

/-- A start that is not above the end. -/
def BoundsWithin (start stop : Option Bytes) : Prop := ∀ low ∈ start, ∀ high ∈ stop, low ≤ high

variable {start stop : Option Bytes} {pre : Bytes}

/-- Everything from the bytes read so far up to the end starts with them. -/
theorem prefix_of_prefixEnd {reversed key : Bytes} (h : prefixEndLoop reversed = .ok stop)
    (hlow : reversed.reverse ≤ key) (hhigh : ∀ high ∈ stop, key < high) : reversed.reverse <+: key
    := by
  -- a last byte of 255 is followed by no larger one, so it is enough that the others agree
  have hlast : ∀ {before rest : Bytes}, before ++ [255] ≤ before ++ rest →
      before ++ [255] <+: before ++ rest := by
    intro before rest hle
    rw [append_le_append_left_iff] at hle
    rw [List.prefix_append_right_inj]
    cases rest with
    | nil => exact absurd hle (by simp)
    | cons x rest =>
      have hx : ¬ x < 255 := fun hlt => hle.not_gt (List.cons_lt_cons_iff.mpr (.inl hlt))
      obtain rfl : x = 255 := le_antisymm (Fin.le_last x) (not_lt.mp hx)
      simp
  induction reversed generalizing key with
  | nil => cases h
  | cons last rest ih =>
    rw [List.reverse_cons] at hlow ⊢
    rw [prefixEndLoop] at h
    split_ifs at h with hbyte hrest
    · cases h
      have hend := hhigh _ rfl
      rw [List.reverse_cons] at hend
      obtain ⟨tail, rfl⟩ := prefix_of_between hlow hend
      rw [append_le_append_left_iff] at hlow
      rw [append_lt_append_left_iff] at hend
      rw [List.prefix_append_right_inj]
      cases tail with
      | nil => exact absurd hlow (by simp)
      | cons x tail =>
        have hlow' : ¬ x < last := fun hlt => hlow.not_gt (List.cons_lt_cons_iff.mpr (.inl hlt))
        have hhigh' : x < last + 1 := by
          simpa [List.cons_lt_cons_iff] using hend
        have hnext : (last + 1).val = last.val + 1 :=
          Fin.val_add_one_of_lt (lt_of_le_of_ne (Fin.le_last last) hbyte)
        obtain rfl : x = last := by
          rw [Fin.lt_def] at hlow' hhigh'
          exact Fin.ext (by omega)
        simp
    · obtain rfl : last = 255 := not_not.mp hbyte
      obtain rfl : rest = [] := List.isEmpty_iff.mp hrest
      exact hlast hlow
    · obtain rfl : last = 255 := not_not.mp hbyte
      have hbefore : rest.reverse ≤ key :=
        le_trans (by simpa using (append_le_append_left_iff rest.reverse [] [255]).mpr (nil_le _)) hlow
      obtain ⟨tail, rfl⟩ := ih h hbefore hhigh
      exact hlast hlow

theorem inDomain_prefixEnd_iff {key : Bytes} (h : prefixEndBytes (some pre) = .ok stop) : InDomain
    (some pre) stop key ↔ pre <+: key := by
  constructor
  · rintro ⟨hlow, hhigh⟩
    have hprefix := prefix_of_prefixEnd h (by simpa using hlow pre rfl) hhigh
    rwa [List.reverse_reverse] at hprefix
  · rintro ⟨rest, rfl⟩
    refine ⟨?_, ?_⟩
    · rintro low ⟨⟩
      simpa using (append_le_append_left_iff pre [] rest).mpr (nil_le rest)
    · rintro high rfl
      have hlt := append_lt_prefixEnd h rest
      rwa [List.reverse_reverse] at hlt

theorem prefixEndLoop_eq_none_iff {reversed : Bytes} (h : prefixEndLoop reversed = .ok stop) :
    stop = none ↔ ∀ b ∈ reversed, b = 255 := by
  induction reversed with
  | nil => cases h
  | cons last rest ih =>
    rw [prefixEndLoop] at h
    rw [List.forall_mem_cons]
    split_ifs at h with hlast hrest
    · cases h
      simp [hlast]
    · cases h
      rw [List.isEmpty_iff.mp hrest]
      simpa using hlast
    · rw [ih h, and_iff_right (not_not.mp hlast)]

/-- The keys that start with `pre` are those from `pre` up to its end, which is missing exactly if
all bytes are 255. -/
theorem prefix_ranges_tight (hpre : pre ≠ []) : ∃ stop, prefixEndBytes (some pre) = .ok stop ∧
    (stop = none ↔ ∀ b ∈ pre, b = 255) ∧
    ∀ key, pre <+: key ↔ pre ≤ key ∧ (stop = none ∨ ∃ high, stop = some high ∧ key < high) := by
  obtain ⟨stop, hstop⟩ := @exists_prefixEndBytes (some pre) (by simpa using hpre)
  refine ⟨stop, hstop, ?_, fun key => ?_⟩
  · simpa using prefixEndLoop_eq_none_iff hstop
  · rw [← inDomain_prefixEnd_iff hstop]
    cases stop with
    | none => simp [InDomain]
    | some high => simp [InDomain]

theorem prefix_ranges_tight_ff : ∃ stop : Option Bytes, prefixEndBytes (some [1, 255]) = .ok stop ∧
    ∀ key : Bytes, [1, 255] <+: key ↔
      [1, 255] ≤ key ∧ (stop = none ∨ ∃ high, stop = some high ∧ key < high) := by
  obtain ⟨stop, hstop, -, htight⟩ := @prefix_ranges_tight [1, 255] (by simp)
  exact ⟨stop, hstop, htight⟩

/-- The range handed to the parent is the range asked for, under the prefix. -/
theorem inDomain_prefixed_iff {stop' : Option Bytes} (h : prefixedEnd pre stop = .ok stop')
    (key : Bytes) :
    InDomain (some (pre ++ start.getD [])) stop' key ↔
      ∃ rest, key = pre ++ rest ∧ InDomain start stop rest := by
  have hstart : ∀ rest, start.getD [] ≤ rest ↔ ∀ low ∈ start, low ≤ rest := by
    intro rest
    cases start with
    | none => simp [nil_le]
    | some low => simp
  constructor
  · rintro ⟨hlow, hhigh⟩
    have hlow' := hlow _ rfl
    have hprefix : pre <+: key := by
      cases stop with
      | none =>
        have hpre : pre ≤ key :=
          le_trans (by simpa using (append_le_append_left_iff pre [] _).mpr (nil_le _)) hlow'
        refine (inDomain_prefixEnd_iff h).mp ⟨?_, hhigh⟩
        rintro low ⟨⟩
        exact hpre
      | some high =>
        cases h
        exact prefix_of_between hlow' (hhigh _ rfl)
    obtain ⟨rest, rfl⟩ := hprefix
    rw [append_le_append_left_iff] at hlow'
    refine ⟨rest, rfl, (hstart rest).mp hlow', ?_⟩
    rintro high rfl
    cases h
    simpa using hhigh _ rfl
  · rintro ⟨rest, rfl, hlow, hhigh⟩
    refine ⟨?_, ?_⟩
    · rintro low ⟨⟩
      rw [append_le_append_left_iff]
      exact (hstart rest).mpr hlow
    · cases stop with
      | none => exact ((inDomain_prefixEnd_iff h).mpr (List.prefix_append pre rest)).2
      | some high =>
        cases h
        rintro _ ⟨⟩
        rw [append_lt_append_left_iff]
        exact hhigh high rfl

theorem exists_prefixedEnd (hpre : pre ≠ []) (stop : Option Bytes) :
    ∃ stop', prefixedEnd pre stop = .ok stop' := by
  cases stop with
  | none => exact exists_prefixEndBytes fun hempty => hpre (Option.some.inj hempty)
  | some stop => exact ⟨_, rfl⟩

theorem BoundsWithin.prefixed {stop' : Option Bytes} (hbounds : BoundsWithin start stop)
    (h : prefixedEnd pre stop = .ok stop') : BoundsWithin (some (pre ++ start.getD [])) stop' := by
  rintro low ⟨⟩ high hhigh
  cases stop with
  | none =>
    obtain rfl := hhigh
    have hlt := append_lt_prefixEnd h (start.getD [])
    rw [List.reverse_reverse] at hlt
    exact hlt.le
  | some stop =>
    cases h
    obtain rfl := Option.some.inj hhigh
    rw [append_le_append_left_iff]
    cases start with
    | none => exact nil_le stop
    | some low => exact hbounds low rfl stop rfl

/-! ## Prefix stores are sub-stores -/

section Implements

variable {σ ι : Type}

/-- The store answers and changes as a map does: `content` says which one its state stands for.  The
iterator is asked for ranges whose start is not above their end. -/
structure KVMethods.Implements (store : KVMethods σ ι) (content : σ → KVStore Bytes Bytes) :
    Prop where
  get (s : σ) (key : Bytes) :
    (store.get s key).1 = (content s)[key]? ∧ content (store.get s key).2 = content s
  has (s : σ) (key : Bytes) :
    (store.has s key).1 = (content s)[key]?.isSome ∧ content (store.has s key).2 = content s
  set (s : σ) (key value : Bytes) : content (store.set s key value) = (content s).insert key value
  delete (s : σ) (key : Bytes) : content (store.delete s key) = (content s).erase key
  iterates : ∃ R, store.cursor.Follows R ∧ ∀ s start stop, BoundsWithin start stop →
    ∃ iter pairs, store.iterator s start stop = .ok iter ∧ R iter pairs ∧
      Lists (· < ·) (InDomain start stop) (content s) pairs

/-- A prefix store implements the part of the content under its prefix. -/
theorem prefixStore_implements {store : KVMethods σ ι} {content : σ → KVStore Bytes Bytes}
    (h : store.Implements content) {pre : Bytes} (hpre : pre ≠ []) :
    (prefixStore store pre).Implements fun s => KVStore.subMap pre (content s) where
  get s key := by
    obtain ⟨hvalue, hsame⟩ := h.get s (pre ++ key)
    exact ⟨hvalue.trans (KVStore.getElem?_subMap _ _ _).symm, congrArg _ hsame⟩
  has s key := by
    obtain ⟨hfound, hsame⟩ := h.has s (pre ++ key)
    refine ⟨?_, congrArg _ hsame⟩
    rw [KVStore.getElem?_subMap]
    exact hfound
  set s key value := (congrArg _ (h.set s (pre ++ key) value)).trans (KVStore.subMap_insert _ _ _ _)
  delete s key := (congrArg _ (h.delete s (pre ++ key))).trans (KVStore.subMap_erase _ _ _)
  iterates := by
    obtain ⟨R, hfollows, hiterates⟩ := h.iterates
    refine ⟨_, hfollows.mapKey (cutKey pre) (List.drop pre.length), ?_⟩
    intro s start stop hbounds
    obtain ⟨stop', hstop'⟩ := exists_prefixedEnd hpre stop
    obtain ⟨iter, pairs, hiter, hR, hlists⟩ := hiterates s _ _ (hbounds.prefixed hstop')
    have hunder : ∀ key, InDomain (some (pre ++ start.getD [])) stop' key ↔
        ∃ rest, key = pre ++ rest ∧ InDomain start stop rest := inDomain_prefixed_iff hstop'
    refine ⟨iter, _, ?_, ⟨pairs, hR, ?_, rfl⟩, hlists.subMap hunder⟩
    · rw [prefixStore]
      simp only [hstop', bind, Except.bind]
      exact hiter
    · rintro ⟨key, value⟩ hmem
      obtain ⟨rest, rfl, -⟩ := (hunder key).mp ((hlists.mem_iff _ _).mp hmem).2
      rw [cutKey, if_neg (by simp)]

theorem nestedStore_implements {store : KVMethods σ ι} {content : σ → KVStore Bytes Bytes}
    (h : store.Implements content) {pres : List Bytes} (hpres : ∀ pre ∈ pres, pre ≠ []) :
    (nestedStore store pres).Implements fun s => KVStore.subMap pres.flatten (content s) := by
  induction pres generalizing store content with
  | nil =>
    have hsame : (fun s => KVStore.subMap ([] : List Bytes).flatten (content s)) = content := by
      funext s
      apply KVStore.ext
      intro key
      simp
    rw [hsame]
    exact h
  | cons pre pres ih =>
    have hrest := ih (prefixStore_implements h (hpres pre (by simp)))
      fun q hq => hpres q (by simp [hq])
    simp only [KVStore.subMap_subMap] at hrest
    exact hrest

/-! ### Sequences of calls -/

/-- A call on a store; an iteration is the loop over the whole iterator. -/
inductive KVCall
  | get (key : Bytes)
  | has (key : Bytes)
  | set (key value : Bytes)
  | delete (key : Bytes)
  | iterate (start stop : Option Bytes)

/-- What a call answers. -/
inductive KVAnswer
  | value (value : Option Bytes)
  | found (found : Bool)
  | done
  | pairs (pairs : List (Bytes × Option Bytes))
  deriving DecidableEq, Repr

/-- The bounds of an iteration are absent or not the wrong way round. -/
def KVCall.Within : KVCall → Prop
  | .iterate start stop => BoundsWithin start stop
  | _ => True

/-- A call.  There is no answer if the loop over an iterator does not end within `fuel` rounds. -/
def KVMethods.call (store : KVMethods σ ι) (fuel : ℕ) (s : σ) :
    KVCall → Except IteratorPanic (Option KVAnswer × σ)
  | .get key =>
    let (value, s) := store.get s key
    .ok (some (.value value), s)
  | .has key =>
    let (found, s) := store.has s key
    .ok (some (.found found), s)
  | .set key value => .ok (some .done, store.set s key value)
  | .delete key => .ok (some .done, store.delete s key)
  | .iterate start stop => do
      let iter ← store.iterator s start stop
      let pairs ← store.cursor.drain fuel iter
      return (pairs.map .pairs, s)

/-- The answers to some calls, one after the other. -/
def KVMethods.calls (store : KVMethods σ ι) (fuel : ℕ) :
    σ → List KVCall → Except IteratorPanic (List (Option KVAnswer) × σ)
  | s, [] => .ok ([], s)
  | s, call :: rest => do
      let (answer, s) ← store.call fuel s call
      let (answers, s) ← store.calls fuel s rest
      return (answer :: answers, s)

/-- What an independent store with its content in a map answers. -/
def mapCall (t : KVStore Bytes Bytes) : KVCall → KVAnswer × KVStore Bytes Bytes
  | .get key => (.value t[key]?, t)
  | .has key => (.found t[key]?.isSome, t)
  | .set key value => (.done, t.insert key value)
  | .delete key => (.done, t.erase key)
  | .iterate start stop =>
    (.pairs ((t.toList.filter fun pair => InDomain start stop pair.1).map fun pair =>
      (pair.1, some pair.2)), t)

/-- What it answers to some calls, one after the other. -/
def mapCalls : KVStore Bytes Bytes → List KVCall → List KVAnswer × KVStore Bytes Bytes
  | t, [] => ([], t)
  | t, call :: rest =>
    let (answer, t) := mapCall t call
    let (answers, t) := mapCalls t rest
    (answer :: answers, t)

section Calls

variable {store : KVMethods σ ι} {content : σ → KVStore Bytes Bytes}

/-- One call is answered as by the map. -/
theorem KVMethods.Implements.call (h : store.Implements content) (s : σ) {call : KVCall}
    (hcall : call.Within) :
    ∃ s' rounds, (∀ fuel, rounds < fuel →
        store.call fuel s call = .ok (some (mapCall (content s) call).1, s')) ∧
      content s' = (mapCall (content s) call).2 := by
  cases call with
  | get key =>
    obtain ⟨hvalue, hsame⟩ := h.get s key
    refine ⟨(store.get s key).2, 0, fun fuel _ => ?_, hsame⟩
    simp only [KVMethods.call, mapCall, ← hvalue]
  | has key =>
    obtain ⟨hfound, hsame⟩ := h.has s key
    refine ⟨(store.has s key).2, 0, fun fuel _ => ?_, hsame⟩
    simp only [KVMethods.call, mapCall, ← hfound]
  | set key value => exact ⟨store.set s key value, 0, fun fuel _ => rfl, h.set s key value⟩
  | delete key => exact ⟨store.delete s key, 0, fun fuel _ => rfl, h.delete s key⟩
  | iterate start stop =>
    obtain ⟨R, hfollows, hiterates⟩ := h.iterates
    obtain ⟨iter, pairs, hiter, hR, hlists⟩ := hiterates s start stop hcall
    have hpairs := hlists.unique (lists_toList (InDomain start stop) (content s))
    refine ⟨s, pairs.length, fun fuel hfuel => ?_, rfl⟩
    rw [KVMethods.call, hiter]
    simp only [bind, Except.bind, hfollows.drain_eq hR hfuel, pure, Except.pure, mapCall, hpairs]
    rfl

theorem KVMethods.Implements.calls (h : store.Implements content) (s : σ) {calls : List KVCall}
    (hcalls : ∀ call ∈ calls, call.Within) :
    ∃ s' rounds, (∀ fuel, rounds < fuel →
        store.calls fuel s calls = .ok ((mapCalls (content s) calls).1.map some, s')) ∧
      content s' = (mapCalls (content s) calls).2 := by
  induction calls generalizing s with
  | nil => exact ⟨s, 0, fun fuel _ => rfl, rfl⟩
  | cons call rest ih =>
    obtain ⟨s₁, rounds₁, hcall, hcontent₁⟩ := h.call s (hcalls call (by simp))
    obtain ⟨s₂, rounds₂, hrest, hcontent₂⟩ := ih s₁ fun c hc => hcalls c (by simp [hc])
    rw [hcontent₁] at hrest hcontent₂
    refine ⟨s₂, max rounds₁ rounds₂, fun fuel hfuel => ?_, hcontent₂⟩
    rw [KVMethods.calls, hcall fuel (by omega)]
    simp only [bind, Except.bind, hrest fuel (by omega), pure, Except.pure]
    rfl

end Calls

/-! ### Nothing else is touched -/

section Frame

variable {store : KVMethods σ ι} {content : σ → KVStore Bytes Bytes}

theorem nestedStore_eq (store : KVMethods σ ι) (pres : List Bytes) (s : σ) (key value : Bytes) :
    (nestedStore store pres).get s key = store.get s (pres.flatten ++ key) ∧
      (nestedStore store pres).has s key = store.has s (pres.flatten ++ key) ∧
      (nestedStore store pres).set s key value = store.set s (pres.flatten ++ key) value ∧
      (nestedStore store pres).delete s key = store.delete s (pres.flatten ++ key) := by
  induction pres generalizing store with
  | nil => exact ⟨rfl, rfl, rfl, rfl⟩
  | cons pre pres ih =>
    have hrest := ih (prefixStore store pre)
    simp only [prefixStore, ← List.append_assoc] at hrest
    exact hrest

theorem call_frame (h : store.Implements content) {pres : List Bytes} {fuel : ℕ} {s s' : σ}
    {call : KVCall} {answer : Option KVAnswer}
    (hcall : (nestedStore store pres).call fuel s call = .ok (answer, s')) {key : Bytes}
    (hkey : ¬ pres.flatten <+: key) : (content s')[key]? = (content s)[key]? := by
  have hne : ∀ rest, pres.flatten ++ rest ≠ key := fun rest heq => hkey ⟨rest, heq⟩
  cases call with
  | get rest =>
    rw [KVMethods.call, (nestedStore_eq store pres s rest []).1] at hcall
    cases hcall
    exact congrArg (·[key]?) (h.get s _).2
  | has rest =>
    rw [KVMethods.call, (nestedStore_eq store pres s rest []).2.1] at hcall
    cases hcall
    exact congrArg (·[key]?) (h.has s _).2
  | set rest value =>
    cases hcall
    rw [(nestedStore_eq store pres s rest value).2.2.1, h.set,
      KVStore.getElem?_insert_of_ne _ _ (hne rest)]
  | delete rest =>
    cases hcall
    rw [(nestedStore_eq store pres s rest []).2.2.2, h.delete,
      KVStore.getElem?_erase_of_ne _ (hne rest)]
  | iterate start stop =>
    simp only [KVMethods.call, bind_eq_ok, pure_eq_ok, Prod.mk.injEq] at hcall
    obtain ⟨iter, -, pairs, -, -, rfl⟩ := hcall
    rfl

theorem calls_frame (h : store.Implements content) {pres : List Bytes} {fuel : ℕ} {s s' : σ}
    {calls : List KVCall} {answers : List (Option KVAnswer)}
    (hcalls : (nestedStore store pres).calls fuel s calls = .ok (answers, s')) {key : Bytes}
    (hkey : ¬ pres.flatten <+: key) : (content s')[key]? = (content s)[key]? := by
  induction calls generalizing s answers with
  | nil =>
    cases hcalls
    rfl
  | cons call rest ih =>
    simp only [KVMethods.calls, bind_eq_ok, pure_eq_ok, Prod.exists, Prod.mk.injEq] at hcalls
    obtain ⟨answer, s₁, hcall, answers', s₂, hrest, -, rfl⟩ := hcalls
    exact (ih hrest).trans (call_frame h hcall hkey)

end Frame

/-- A prefix store, or a prefix store of prefix stores, answers every sequence of calls as an
independent store with the part of the content under the prefix does, has the same content as that
afterwards, and leaves all other keys of its parent. -/
theorem prefix_stores_are_sub_stores {store : KVMethods σ ι} {content : σ → KVStore Bytes Bytes}
    (h : store.Implements content) {pres : List Bytes} (hpres : ∀ pre ∈ pres, pre ≠ []) (s : σ)
    {calls : List KVCall} (hcalls : ∀ call ∈ calls, call.Within) :
    ∃ s' rounds,
      (∀ fuel, rounds < fuel → (nestedStore store pres).calls fuel s calls =
        .ok ((mapCalls (KVStore.subMap pres.flatten (content s)) calls).1.map some, s')) ∧
      KVStore.subMap pres.flatten (content s') =
        (mapCalls (KVStore.subMap pres.flatten (content s)) calls).2 ∧
      ∀ key, ¬ pres.flatten <+: key → (content s')[key]? = (content s)[key]? := by
  obtain ⟨s', rounds, hanswers, hcontent⟩ := (nestedStore_implements h hpres).calls s hcalls
  exact ⟨s', rounds, hanswers, hcontent,
    fun key hkey => calls_frame h (hanswers (rounds + 1) (by omega)) hkey⟩

end Implements

/-! ## The store at the bottom -/

/-- What is assumed of the IAVL store: its iterators walk the entries inside the bounds, upwards or
downwards, whatever the bounds are. -/
def BottomIterator.Exact {ι : Type} (bottom : BottomIterator ι) : Prop :=
  ∃ R, ∃ entries : Listing, bottom.cursor.Follows R ∧ ∀ content start stop ascending,
    R (bottom.iterator content start stop ascending) (entries content start stop ascending) ∧
      Lists (Before ascending) (InDomain start stop) content (entries content start stop ascending)

theorem listBottom_exact : listBottom.Exact := by
  refine ⟨Eq, listBottom.iterator, listBottom_follows, ?_⟩
  intro content start stop ascending
  cases ascending with
  | true => exact ⟨rfl, lists_toList (InDomain start stop) content⟩
  | false => exact ⟨rfl, lists_descending (InDomain start stop) content⟩

theorem contentStore_implements {ι : Type} {bottom : BottomIterator ι} (hbottom : bottom.Exact) :
    (contentStore bottom).Implements id where
  get content key := ⟨rfl, rfl⟩
  has content key := ⟨rfl, rfl⟩
  set content key value := rfl
  delete content key := rfl
  iterates := by
    obtain ⟨R, entries, hfollows, hentries⟩ := hbottom
    refine ⟨R, hfollows, fun content start stop _ => ?_⟩
    obtain ⟨hR, hlists⟩ := hentries content start stop true
    exact ⟨_, _, rfl, hR, hlists⟩

/-- A prefix that ends in 255 within another one. -/
theorem prefix_stores_example :
    let content := ((∅ : KVStore Bytes Bytes).insert [1, 255, 7] [10]).insert [2] [20]
    ∃ s' rounds, ∀ fuel, rounds < fuel →
      (nestedStore (contentStore listBottom) [[1], [255]]).calls fuel content
          [.get [7], .set [8] [30], .delete [7], .iterate none none] =
        .ok ([some (.value (some [10])), some .done, some .done, some (.pairs [([8], some [30])])], s') := by
  intro content
  have hcalls : ∀ call ∈ [KVCall.get [7], .set [8] [30], .delete [7], .iterate none none],
      call.Within := by
    simp [KVCall.Within, BoundsWithin]
  have hpres : ∀ pre ∈ ([[1], [255]] : List Bytes), pre ≠ [] := by decide
  obtain ⟨s', rounds, hanswers, -⟩ := prefix_stores_are_sub_stores
    (contentStore_implements listBottom_exact) hpres content hcalls
  have hmap : (mapCalls (KVStore.subMap [[1], [255]].flatten content)
      [KVCall.get [7], .set [8] [30], .delete [7], .iterate none none]).1 =
      [.value (some [10]), .done, .done, .pairs [([8], some [30])]] := by decide +kernel
  refine ⟨s', rounds, fun fuel hfuel => (hanswers fuel hfuel).trans ?_⟩
  rw [id, hmap]
  rfl

/-! ## Reverse iteration -/

section Reverse

variable {ι : Type}

/-- The loop over `Iterator(start, end)` of a prefix store. -/
def forwardPairs (bottom : BottomIterator ι) (pre : Bytes) (content : KVStore Bytes Bytes)
    (start stop : Option Bytes) (fuel : ℕ) :
    Except IteratorPanic (Option (List (Bytes × Option Bytes))) := do
  let iter ← (prefixStore (contentStore bottom) pre).iterator content start stop
  (prefixStore (contentStore bottom) pre).cursor.drain fuel iter

/-- The loop over `ReverseIterator(start, end)` of a prefix store. -/
def reversePairs (bottom : BottomIterator ι) (pre : Bytes) (content : KVStore Bytes Bytes)
    (start stop : Option Bytes) (fuel : ℕ) :
    Except IteratorPanic (Option (List (Bytes × Option Bytes))) := do
  let iter ← (prefixStore (contentStore bottom) pre).reverseIterator content start stop
  (prefixStore (contentStore bottom) pre).cursor.drain fuel iter

/-- Both loops end, and the second yields the pairs of the first in the opposite order. -/
def Mirrored (bottom : BottomIterator ι) (pre : Bytes) (content : KVStore Bytes Bytes)
    (start stop : Option Bytes) : Prop :=
  ∃ pairs rounds, ∀ fuel, rounds < fuel →
    forwardPairs bottom pre content start stop fuel = .ok (some pairs) ∧
      reversePairs bottom pre content start stop fuel = .ok (some pairs.reverse)

/-- No key of the content below the end is on one side of the start but on the other side of the
start with the prefix. -/
def StartsAgree (pre : Bytes) (content : KVStore Bytes Bytes) (start stop' : Option Bytes) : Prop :=
  ∀ key value, content[key]? = some value → (∀ high ∈ stop', key < high) →
    ((∀ low ∈ start, low ≤ key) ↔ pre ++ start.getD [] ≤ key)

theorem mapM_cutKey {pre : Bytes} {pairs : List (Bytes × Bytes)}
    (h : ∀ pair ∈ pairs, pre <+: pair.1) :
    pairs.mapM (Cursor.changePair (cutKey pre)) =
      .ok (pairs.map fun pair => (pair.1.drop pre.length, some pair.2)) := by
  induction pairs with
  | nil => rfl
  | cons pair pairs ih =>
    have hcut : cutKey pre pair.1 = .ok (pair.1.drop pre.length) :=
      if_neg (by simpa using (h pair (by simp)).length_le)
    rw [List.mapM_cons, ih fun p hp => h p (by simp [hp]), Cursor.changePair, hcut]
    rfl

/-- Of two listings of a content down to different starts, one is part of the other; so if they are as
long as each other the starts agree. -/
theorem startsAgree_of_length {pre : Bytes} {content : KVStore Bytes Bytes}
    {start stop' : Option Bytes} {up down : List (Bytes × Bytes)}
    (hup : Lists (· < ·) (InDomain (some (pre ++ start.getD [])) stop') content up)
    (hdown : Lists (· > ·) (InDomain start stop') content down)
    (hlength : down.length = up.length) : StartsAgree pre content start stop' := by
  have hsame : ∀ pair, pair ∈ up ↔ pair ∈ down := by
    by_cases hbelow : ∀ low ∈ start, low ≤ pre ++ start.getD []
    · have hsub : up ⊆ down := by
        rintro ⟨key, value⟩ hmem
        obtain ⟨hvalue, hlow, hhigh⟩ := (hup.mem_iff _ _).mp hmem
        exact (hdown.mem_iff _ _).mpr
          ⟨hvalue, fun low hstart => (hbelow low hstart).trans (hlow _ rfl), hhigh⟩
      exact fun pair =>
        ((hup.nodup.subperm hsub).perm_of_length_le hlength.le).mem_iff
    · push Not at hbelow
      obtain ⟨low, hstart, habove⟩ := hbelow
      have hsub : down ⊆ up := by
        rintro ⟨key, value⟩ hmem
        obtain ⟨hvalue, hlow, hhigh⟩ := (hdown.mem_iff _ _).mp hmem
        refine (hup.mem_iff _ _).mpr ⟨hvalue, ?_, hhigh⟩
        rintro _ ⟨⟩
        exact habove.le.trans (hlow low hstart)
      exact fun pair =>
        ((hdown.nodup.subperm hsub).perm_of_length_le hlength.ge).mem_iff.symm
  intro key value hvalue hhigh
  have hiff := hsame (key, value)
  rw [hup.mem_iff, hdown.mem_iff] at hiff
  constructor
  · intro hlow
    exact (hiff.mpr ⟨hvalue, hlow, hhigh⟩).2.1 _ rfl
  · intro hlow
    refine (hiff.mp ⟨hvalue, ?_, hhigh⟩).2.1
    rintro _ ⟨⟩
    exact hlow

/-- Reverse iteration over a prefix store is the mirror image of forward iteration exactly if the start
that is handed on without the prefix makes no difference. -/
theorem mirrored_iff {bottom : BottomIterator ι} (hbottom : bottom.Exact) {pre : Bytes}
    (hpre : pre ≠ []) (content : KVStore Bytes Bytes) {start stop : Option Bytes} :
    ∃ stop', prefixedEnd pre stop = .ok stop' ∧
      (Mirrored bottom pre content start stop ↔ StartsAgree pre content start stop') := by
  obtain ⟨stop', hstop'⟩ := exists_prefixedEnd hpre stop
  refine ⟨stop', hstop', ?_⟩
  obtain ⟨R, entries, hfollows, hentries⟩ := hbottom
  obtain ⟨hRup, hup⟩ := hentries content (some (pre ++ start.getD [])) stop' true
  obtain ⟨hRdown, hdown⟩ := hentries content start stop' false
  generalize entries content (some (pre ++ start.getD [])) stop' true = up at hRup hup
  generalize entries content start stop' false = down at hRdown hdown
  have hunder : ∀ pair ∈ up, pre <+: pair.1 := by
    rintro ⟨key, value⟩ hmem
    obtain ⟨rest, rfl, -⟩ := (inDomain_prefixed_iff hstop' key).mp ((hup.mem_iff _ _).mp hmem).2
    exact List.prefix_append _ _
  have hforward : ∀ fuel, up.length < fuel → forwardPairs bottom pre content start stop fuel =
      .ok (some (up.map fun pair => (pair.1.drop pre.length, some pair.2))) := by
    intro fuel hfuel
    have hdrain := hfollows.drain_mapKey (cutKey pre) hRup hfuel
    rw [mapM_cutKey hunder] at hdrain
    simp only [forwardPairs, prefixStore, hstop', bind, Except.bind]
    exact hdrain
  have hreverse : ∀ fuel, down.length < fuel → reversePairs bottom pre content start stop fuel =
      down.mapM (Cursor.changePair (cutKey pre)) >>= fun changed => .ok (some changed) := by
    intro fuel hfuel
    simp only [reversePairs, prefixStore, hstop', bind, Except.bind]
    exact hfollows.drain_mapKey (cutKey pre) hRdown hfuel
  constructor
  · rintro ⟨pairs, rounds, hmirror⟩
    obtain ⟨hfirst, hsecond⟩ := hmirror (max rounds (max up.length down.length) + 1) (by omega)
    rw [hforward _ (by omega)] at hfirst
    rw [hreverse _ (by omega), bind_eq_ok] at hsecond
    obtain ⟨changed, hchanged, heq⟩ := hsecond
    have hlength := (forall₂_of_mapM hchanged).length_eq
    cases hfirst
    cases heq
    exact startsAgree_of_length hup hdown (by simpa using hlength)
  · intro hagree
    have hdown' : Lists (· < ·) (InDomain (some (pre ++ start.getD [])) stop') content down.reverse := by
      refine ⟨List.pairwise_reverse.mpr hdown.sorted, fun key value => ?_⟩
      rw [List.mem_reverse, hdown.mem_iff]
      refine and_congr_right fun hvalue => ⟨?_, ?_⟩
      · rintro ⟨hlow, hhigh⟩
        refine ⟨?_, hhigh⟩
        rintro _ ⟨⟩
        exact (hagree key value hvalue hhigh).mp hlow
      · rintro ⟨hlow, hhigh⟩
        exact ⟨(hagree key value hvalue hhigh).mpr (hlow _ rfl), hhigh⟩
    have heq : down = up.reverse := by
      rw [← List.reverse_reverse down, hdown'.unique hup]
    refine ⟨_, max up.length down.length, fun fuel hfuel => ⟨hforward fuel (by omega), ?_⟩⟩
    rw [hreverse fuel (by omega), heq, mapM_cutKey fun pair hpair =>
      hunder pair (List.mem_reverse.mp hpair), List.map_reverse]
    rfl

/-- Without a start, over a parent with no key before the prefix. -/
theorem mirrored_example :
    Mirrored listBottom [1] (((∅ : KVStore Bytes Bytes).insert [1, 7] [10]).insert [2] [20]) none
      none := by
  obtain ⟨stop', -, hiff⟩ := mirrored_iff listBottom_exact (by decide : [1] ≠ ([] : Bytes))
    (((∅ : KVStore Bytes Bytes).insert [1, 7] [10]).insert [2] [20])
  refine hiff.mpr fun key value hvalue _ => ?_
  rw [KVStore.getElem?_insert, KVStore.getElem?_insert] at hvalue
  split_ifs at hvalue with hlast hfirst
  · subst hlast
    decide
  · subst hfirst
    decide
  · simp at hvalue

/-- Over a parent with the key `[0, 5]`, the reverse iteration over the prefix `[1]` yields that key too,
without its first byte. -/
theorem reverse_leaves_prefix :
    let content := ((∅ : KVStore Bytes Bytes).insert [0, 5] [20]).insert [1, 7] [10]
    forwardPairs listBottom [1] content none none 3 = .ok (some [([7], some [10])]) ∧
      reversePairs listBottom [1] content none none 3 =
        .ok (some [([7], some [10]), ([5], some [20])]) := by
  intro content
  constructor <;> decide +kernel

end Reverse

end Tepleton.Store
