import Tepleton.Lib.Slice
import Tepleton.Store.Prefix

/-!
# Prefix stores and the capacity of slices

A prefix store puts its prefix in front of a key with `append(s.prefix, key...)`.  If the slice of the
prefix has capacity left, the result lies behind the prefix in the same array, and the next `append`
overwrites it.  `Iterator` makes both its bounds this way, and `Set` hands such a key to its parent,
which keeps it.

This file has the prefix store with its slices.  What it should hand to its parent is what the prefix
store of `Tepleton.Store.Prefix` does, which knows byte strings only.
-/

namespace Tepleton.Store

open Lib

/-- The bytes of an argument that may be `nil`. -/
def bytesOf (h : Heap Byte) : Option Slice → Bytes
  | none => []
  | some s => h.value s

/-- The upper bound in `Iterator` and `ReverseIterator`; `PrefixEndBytes` makes a new slice. -/
def endBound (grow : ℕ → ℕ) (pre : Slice) (h : Heap Byte) :
    Option Slice → Except IteratorPanic (Heap Byte × Option Slice)
  | none => do
      match ← prefixEndBytes (some (h.value pre)) with
      | none => return (h, none)
      | some stop =>
        let (h, bound) := h.alloc stop 0
        return (h, some bound)
  | some stop =>
    let (h, bound) := Heap.append grow h pre (h.value stop)
    .ok (h, some bound)

/-- The bounds that `Iterator` hands to its parent, and the heap when it does. -/
def iteratorBounds (grow : ℕ → ℕ) (pre : Slice) (h : Heap Byte) (start stop : Option Slice) :
    Except IteratorPanic (Heap Byte × Slice × Option Slice) := do
  let (h, stopBound) ← endBound grow pre h stop
  let (h, startBound) := Heap.append grow h pre (bytesOf h start)
  return (h, startBound, stopBound)

/-! ## The bounds of an iterator -/

/-- The arguments exist. -/
def ValidArg (h : Heap Byte) (arg : Option Slice) : Prop := ∀ s, arg = some s → h.Valid s

instance (h : Heap Byte) : (arg : Option Slice) → Decidable (ValidArg h arg)
  | none => isTrue fun _ hs => nomatch hs
  | some s => decidable_of_iff (h.Valid s) ⟨fun hs _ heq => Option.some.inj heq ▸ hs, fun hs => hs s rfl⟩

/-- The parent is given the bounds that a prefix store of byte strings gives it. -/
def BoundsRight (grow : ℕ → ℕ) (pre : Slice) (h : Heap Byte) (start stop : Option Slice) : Prop :=
  ∀ h' startBound stopBound, iteratorBounds grow pre h start stop = .ok (h', startBound, stopBound) →
    h'.value startBound = h.value pre ++ bytesOf h start ∧
      prefixedEnd (h.value pre) (stop.map h.value) = .ok (stopBound.map h'.value)

/-- If the end fits behind the prefix, it does not overwrite a part of the start with other bytes; and
if the start fits as well, the two agree as far as both go. -/
def BoundsApart (pre : Slice) (h : Heap Byte) (start stop : Option Slice) : Prop :=
  ∀ s e, start = some s → stop = some e → pre.Fits e.len →
    (∀ i < s.len, ∀ j < e.len, pre.roomIndex s i = some j → h.read s i = h.read e j) ∧
      (pre.Fits s.len → ∀ j < s.len, j < e.len → h.read s j = h.read e j)

section Bounds

variable {grow : ℕ → ℕ} {pre : Slice} {h h' : Heap Byte}

theorem appended_value_eq_some {s : Slice} {j : ℕ} {b : Byte} :
    Heap.appended pre (h.value s) j = some b ↔ pre.Fits s.len ∧ j < s.len ∧ h.read s j = b := by
  unfold Heap.appended
  rw [Heap.length_value, Heap.getElem?_value]
  split_ifs with hfits hj
  · simp [hfits, hj]
  · simp [hj]
  · simp [hfits]

theorem value_append_nil {t : Slice} (ht : h.Valid t) :
    (Heap.append grow h pre []).1.value t = h.value t := by
  rw [Heap.value_append_eq_iff ht]
  intro i _ j _ x hx
  simp [Heap.appended] at hx

theorem roomIndex_alloc (hpre : h.Valid pre) (xs : Bytes) (spare i : ℕ) :
    pre.roomIndex (h.alloc xs spare).2 i = none := by
  have hne : (h.alloc xs spare).2.array ≠ pre.array := Nat.ne_of_gt hpre
  exact Slice.roomIndex_of_array_ne hne i

variable {start : Option Slice}

/-- With a `nil` end the upper bound is a slice of its own. -/
theorem boundsRight_of_none (hpre : h.Valid pre) (hstart : ValidArg h start) :
    BoundsRight grow pre h start none := by
  intro h₂ startBound stopBound hbounds
  simp only [iteratorBounds, endBound, bind_eq_ok, pure_eq_ok] at hbounds
  obtain ⟨⟨h₁, stop₁⟩, ⟨stop, hstop, hsome⟩, heq⟩ := hbounds
  cases heq
  simp only [Option.map_none, prefixedEnd, hstop]
  cases stop with
  | none =>
    cases hsome
    exact ⟨Heap.value_append _ _ _, rfl⟩
  | some stop =>
    cases hsome
    have hkeeps : ∀ {t}, h.Valid t → (h.alloc stop 0).1.value t = h.value t :=
      fun ht => Heap.value_eq_iff.mpr fun i _ => Heap.read_alloc ht 0 i
    have hargs : bytesOf (h.alloc stop 0).1 start = bytesOf h start := by
      cases start with
      | none => rfl
      | some s => exact hkeeps (hstart s rfl)
    have hbound : (Heap.append grow (h.alloc stop 0).1 pre
        (bytesOf (h.alloc stop 0).1 start)).1.value (h.alloc stop 0).2 = stop := by
      rw [(Heap.value_append_eq_iff (Heap.valid_alloc h stop 0)).mpr, Heap.value_alloc]
      intro i _ j hj
      rw [roomIndex_alloc hpre] at hj
      cases hj
    exact ⟨by rw [Heap.value_append, hkeeps hpre, hargs], by rw [Option.map_some, hbound]⟩

/-- With another end it is made behind the prefix, if it fits, before the start is. -/
theorem boundsRight_some_iff (hpre : h.Valid pre) (hstart : ValidArg h start) (e : Slice) :
    BoundsRight grow pre h start (some e) ↔ BoundsApart pre h start (some e) := by
  generalize hfirst : Heap.append grow h pre (h.value e) = first
  have hpre₁ : first.1.value pre = h.value pre := by
    rw [← hfirst]
    exact Heap.value_append_self hpre
  have hbounds : BoundsRight grow pre h start (some e) ↔
      bytesOf first.1 start = bytesOf h start ∧
        (Heap.append grow first.1 pre (bytesOf first.1 start)).1.value first.2 =
          h.value pre ++ h.value e := by
    have hresult : iteratorBounds grow pre h start (some e) =
        .ok ((Heap.append grow first.1 pre (bytesOf first.1 start)).1,
          (Heap.append grow first.1 pre (bytesOf first.1 start)).2, some first.2) := by
      simp only [iteratorBounds, endBound, hfirst]
      rfl
    unfold BoundsRight
    rw [hresult]
    constructor
    · intro hall
      obtain ⟨hlow, hhigh⟩ := hall _ _ _ rfl
      rw [Heap.value_append, hpre₁] at hlow
      simp only [Option.map_some, prefixedEnd, Except.ok.injEq, Option.some.injEq] at hhigh
      exact ⟨List.append_cancel_left hlow, hhigh.symm⟩
    · rintro ⟨hlow, hhigh⟩ h₂ startBound stopBound heq
      cases heq
      refine ⟨by rw [Heap.value_append, hpre₁, hlow], ?_⟩
      rw [Option.map_some, Option.map_some, prefixedEnd, hhigh]
  rw [hbounds]
  cases start with
  | none =>
    refine iff_of_true ⟨rfl, ?_⟩ fun s e' hs => nomatch hs
    have hvalid : first.1.Valid first.2 := hfirst ▸ Heap.valid_append_result hpre
    rw [bytesOf, value_append_nil hvalid, ← hfirst, Heap.value_append]
  | some s =>
    have hstarts : first.1.value s = h.value s ↔ (pre.Fits e.len → ∀ i < s.len, ∀ j < e.len,
        pre.roomIndex s i = some j → h.read s i = h.read e j) := by
      rw [← hfirst, Heap.value_append_eq_iff (hstart s rfl)]
      simp only [appended_value_eq_some]
      constructor
      · intro hkeeps hfits i hi j hj hroom
        exact hkeeps i hi j hroom _ ⟨hfits, hj, rfl⟩
      · rintro hagree i hi j hroom x ⟨hfits, hj, rfl⟩
        exact hagree hfits i hi j hj hroom
    have hends : first.1.value s = h.value s →
        ((Heap.append grow first.1 pre (first.1.value s)).1.value first.2 =
            h.value pre ++ h.value e ↔
          (pre.Fits e.len → pre.Fits s.len → ∀ j < s.len, j < e.len →
            h.read s j = h.read e j)) := by
      intro hsame
      rw [hsame, ← hfirst, Heap.value_append_append_iff hpre, Heap.length_value]
      simp only [appended_value_eq_some, Heap.getElem?_value]
      constructor
      · intro hagree hfits hfits' j hj hj'
        exact (hagree hfits j _ _ (if_pos hj') ⟨hfits', hj, rfl⟩).symm
      · rintro hagree hfits j x y hx ⟨hfits', hj, rfl⟩
        split_ifs at hx with hj'
        cases hx
        exact (hagree hfits hfits' j hj hj').symm
    have hapart : BoundsApart pre h (some s) (some e) ↔
        (pre.Fits e.len → ∀ i < s.len, ∀ j < e.len, pre.roomIndex s i = some j →
            h.read s i = h.read e j) ∧
          (pre.Fits e.len → pre.Fits s.len → ∀ j < s.len, j < e.len →
            h.read s j = h.read e j) := by
      constructor
      · intro hall
        exact ⟨fun hfits => (hall s e rfl rfl hfits).1, fun hfits => (hall s e rfl rfl hfits).2⟩
      · rintro ⟨hleft, hright⟩ s' e' hs he hfits
        cases hs
        cases he
        exact ⟨hleft hfits, hright hfits⟩
    rw [hapart, ← hstarts]
    exact and_congr_right hends

theorem boundsRight_iff (hpre : h.Valid pre) {stop : Option Slice} (hstart : ValidArg h start) :
    BoundsRight grow pre h start stop ↔ BoundsApart pre h start stop := by
  cases stop with
  | none => exact iff_of_true (boundsRight_of_none hpre hstart) fun s e _ he => nomatch he
  | some e => exact boundsRight_some_iff hpre hstart e

end Bounds

/-! ## Keys that the parent keeps -/

/-- A call to a prefix store.  Values that are set are not changed by the prefix store. -/
inductive PrefixCall
  | get (key : Slice)
  | has (key : Slice)
  | set (key : Slice)
  | delete (key : Slice)
  | iterator (start stop : Option Slice)
  | reverseIterator (start stop : Option Slice)

/-- The slices handed to the parent by `Set`, with the bytes they had then. -/
structure PrefixState where
  heap : Heap Byte
  handed : List (Slice × Bytes)

/-- One call, up to the point where the parent is called. -/
def callPrefix (grow : ℕ → ℕ) (pre : Slice) (st : PrefixState) :
    PrefixCall → Except IteratorPanic PrefixState
  | .get key => .ok { st with heap := (Heap.append grow st.heap pre (st.heap.value key)).1 }
  | .has key => .ok { st with heap := (Heap.append grow st.heap pre (st.heap.value key)).1 }
  | .set key =>
    let (heap, full) := Heap.append grow st.heap pre (st.heap.value key)
    .ok ⟨heap, st.handed ++ [(full, heap.value full)]⟩
  | .delete key => .ok { st with heap := (Heap.append grow st.heap pre (st.heap.value key)).1 }
  | .iterator start stop => do
      let (heap, _, _) ← iteratorBounds grow pre st.heap start stop
      return { st with heap := heap }
  | .reverseIterator _ stop => do
      let (heap, _) ← endBound grow pre st.heap stop
      return { st with heap := heap }

/-- The arguments of a call exist. -/
def ValidCall (st : PrefixState) : PrefixCall → Prop
  | .get key => st.heap.Valid key
  | .has key => st.heap.Valid key
  | .set key => st.heap.Valid key
  | .delete key => st.heap.Valid key
  | .iterator start stop => ValidArg st.heap start ∧ ValidArg st.heap stop
  | .reverseIterator start stop => ValidArg st.heap start ∧ ValidArg st.heap stop

instance (st : PrefixState) : (call : PrefixCall) → Decidable (ValidCall st call)
  | .get key => inferInstanceAs (Decidable (st.heap.Valid key))
  | .has key => inferInstanceAs (Decidable (st.heap.Valid key))
  | .set key => inferInstanceAs (Decidable (st.heap.Valid key))
  | .delete key => inferInstanceAs (Decidable (st.heap.Valid key))
  | .iterator start stop =>
    inferInstanceAs (Decidable (ValidArg st.heap start ∧ ValidArg st.heap stop))
  | .reverseIterator start stop =>
    inferInstanceAs (Decidable (ValidArg st.heap start ∧ ValidArg st.heap stop))

/-- The keys that were handed on are what they were. -/
def KeysIntact (st : PrefixState) : Prop := ∀ key ∈ st.handed, st.heap.value key.1 = key.2

instance (st : PrefixState) : Decidable (KeysIntact st) :=
  inferInstanceAs (Decidable (∀ key ∈ st.handed, _))

/-- The byte that an argument leaves at a place behind the prefix. -/
def leftByArg (pre : Slice) (h : Heap Byte) (arg : Option Slice) (j : ℕ) : Option Byte :=
  arg.bind fun s => Heap.appended pre (h.value s) j

/-- The heap when `Iterator` has made its upper bound, as far as it is not a new slice. -/
def heapAtStart (grow : ℕ → ℕ) (pre : Slice) (h : Heap Byte) : Option Slice → Heap Byte
  | none => h
  | some stop => (Heap.append grow h pre (h.value stop)).1

/-- The byte that a call leaves at a place behind the prefix: in `Iterator` that of the start, which
is written last, before that of the end. -/
def leftByCall (grow : ℕ → ℕ) (pre : Slice) (h : Heap Byte) : PrefixCall → ℕ → Option Byte
  | .get key => leftByArg pre h (some key)
  | .has key => leftByArg pre h (some key)
  | .set key => leftByArg pre h (some key)
  | .delete key => leftByArg pre h (some key)
  | .iterator start stop => fun j =>
    (leftByArg pre (heapAtStart grow pre h stop) start j).or (leftByArg pre h stop j)
  | .reverseIterator _ stop => leftByArg pre h stop

/-- What a call leaves behind the prefix are the bytes that the keys handed on have there. -/
def KeysSpared (grow : ℕ → ℕ) (pre : Slice) (st : PrefixState) (call : PrefixCall) : Prop :=
  ∀ key ∈ st.handed, ∀ i < key.1.len, ∀ j, pre.roomIndex key.1 i = some j →
    ∀ b, leftByCall grow pre st.heap call j = some b → st.heap.read key.1 i = b

section Keys

variable {grow : ℕ → ℕ} {pre : Slice} {h h' : Heap Byte} {st st' : PrefixState} {call : PrefixCall}

/-- What changes in a slice when something is left behind the prefix. -/
def Overlaid (pre : Slice) (h h' : Heap Byte) (left : ℕ → Option Byte) : Prop :=
  h.next ≤ h'.next ∧ ∀ t, h.Valid t → ∀ i,
    h'.read t i = ((pre.roomIndex t i).bind left).getD (h.read t i)

theorem overlaid_append (grow : ℕ → ℕ) (pre : Slice) (h : Heap Byte) (key : Bytes) :
    Overlaid pre h (Heap.append grow h pre key).1 (Heap.appended pre key) := by
  refine ⟨?_, fun t ht i => Heap.read_append ht i⟩
  unfold Heap.append
  split_ifs
  · exact le_rfl
  · exact Nat.le_succ _

variable {stop : Option Slice}

theorem overlaid_endBound {bound : Option Slice} (h₁ : endBound grow pre h stop = .ok (h', bound)) :
    Overlaid pre h h' (leftByArg pre h stop) := by
  cases stop with
  | some e =>
    cases h₁
    exact overlaid_append grow pre h (h.value e)
  | none =>
    have hnothing : ∀ t i, (pre.roomIndex t i).bind (leftByArg pre h none) = none := by
      intro t i
      cases pre.roomIndex t i <;> rfl
    simp only [endBound, bind_eq_ok] at h₁
    obtain ⟨stop, -, h₁⟩ := h₁
    cases stop with
    | none =>
      cases h₁
      exact ⟨le_rfl, fun t _ i => by rw [hnothing]; rfl⟩
    | some stop =>
      cases h₁
      refine ⟨Nat.le_succ _, fun t ht i => ?_⟩
      rw [hnothing, Heap.read_alloc ht]
      rfl

theorem Overlaid.valid {left : ℕ → Option Byte} (h₁ : Overlaid pre h h' left) {t : Slice}
    (ht : h.Valid t) : h'.Valid t := lt_of_lt_of_le ht h₁.1

theorem Overlaid.trans {h'' : Heap Byte} {left left' : ℕ → Option Byte}
    (h₁ : Overlaid pre h h' left) (h₂ : Overlaid pre h' h'' left') :
    Overlaid pre h h'' fun j => (left' j).or (left j) := by
  refine ⟨h₁.1.trans h₂.1, fun t ht i => ?_⟩
  rw [h₂.2 t (h₁.valid ht), h₁.2 t ht]
  cases pre.roomIndex t i with
  | none => rfl
  | some j =>
    simp only [Option.bind_some]
    cases left' j with
    | none => rfl
    | some b => rfl

theorem value_heapAtStart {bound : Option Slice} (h₁ : endBound grow pre h stop = .ok (h', bound))
    {s : Slice} (hs : h.Valid s) : h'.value s = (heapAtStart grow pre h stop).value s := by
  cases stop with
  | some e =>
    cases h₁
    rfl
  | none =>
    rw [heapAtStart, Heap.value_eq_iff]
    intro i _
    rw [(overlaid_endBound h₁).2 s hs]
    cases pre.roomIndex s i <;> rfl

theorem overlaid_iteratorBounds {start : Option Slice} {bounds : Slice × Option Slice}
    (hstart : ValidArg h start) (h₁ : iteratorBounds grow pre h start stop = .ok (h', bounds)) :
    Overlaid pre h h' (leftByCall grow pre h (.iterator start stop)) := by
  simp only [iteratorBounds, bind_eq_ok, pure_eq_ok] at h₁
  obtain ⟨⟨middle, bound⟩, hend, heq⟩ := h₁
  cases heq
  have hsame : Heap.appended pre (bytesOf middle start) =
      leftByArg pre (heapAtStart grow pre h stop) start := by
    funext j
    cases start with
    | none => simp [leftByArg, bytesOf, Heap.appended]
    | some s => rw [leftByArg, Option.bind_some, bytesOf, value_heapAtStart hend (hstart s rfl)]
  have hsecond := overlaid_append grow pre middle (bytesOf middle start)
  rw [hsame] at hsecond
  exact (overlaid_endBound hend).trans hsecond

/-- Every call leaves its bytes behind the prefix, and `Set` hands one more key on. -/
theorem callPrefix_overlaid (hcall : ValidCall st call)
    (h₁ : callPrefix grow pre st call = .ok st') :
    Overlaid pre st.heap st'.heap (leftByCall grow pre st.heap call) ∧
      (st'.handed = st.handed ∨ ∃ key, call = .set key ∧ st'.handed = st.handed ++
        [((Heap.append grow st.heap pre (st.heap.value key)).2,
          st'.heap.value (Heap.append grow st.heap pre (st.heap.value key)).2)]) := by
  cases call with
  | get key | has key =>
    cases h₁
    exact ⟨overlaid_append grow pre st.heap _, .inl rfl⟩
  | set key =>
    cases h₁
    exact ⟨overlaid_append grow pre st.heap _, .inr ⟨key, rfl, rfl⟩⟩
  | delete key =>
    cases h₁
    exact ⟨overlaid_append grow pre st.heap _, .inl rfl⟩
  | iterator start stop =>
    simp only [callPrefix, bind_eq_ok, pure_eq_ok] at h₁
    obtain ⟨⟨heap, bounds⟩, hbounds, rfl⟩ := h₁
    exact ⟨overlaid_iteratorBounds hcall.1 hbounds, .inl rfl⟩
  | reverseIterator start stop =>
    simp only [callPrefix, bind_eq_ok, pure_eq_ok] at h₁
    obtain ⟨⟨heap, bound⟩, hbound, rfl⟩ := h₁
    exact ⟨overlaid_endBound hbound, .inl rfl⟩

/-- The prefix and the keys handed on exist. -/
structure KeysValid (pre : Slice) (st : PrefixState) : Prop where
  pre : st.heap.Valid pre
  handed : ∀ key ∈ st.handed, st.heap.Valid key.1

theorem KeysValid.step (h : KeysValid pre st) (hcall : ValidCall st call)
    (h₁ : callPrefix grow pre st call = .ok st') : KeysValid pre st' := by
  obtain ⟨hover, hhanded⟩ := callPrefix_overlaid hcall h₁
  refine ⟨hover.valid h.pre, ?_⟩
  rcases hhanded with hsame | ⟨key, rfl, hmore⟩
  · rw [hsame]
    exact fun key hkey => hover.valid (h.handed key hkey)
  · rw [hmore, List.forall_mem_append]
    refine ⟨fun key hkey => hover.valid (h.handed key hkey), ?_⟩
    rw [List.forall_mem_singleton]
    cases h₁
    exact Heap.valid_append_result h.pre

theorem keysIntact_step_iff (hvalid : KeysValid pre st) (hintact : KeysIntact st)
    (hcall : ValidCall st call) (h₁ : callPrefix grow pre st call = .ok st') :
    KeysIntact st' ↔ KeysSpared grow pre st call := by
  obtain ⟨hover, hhanded⟩ := callPrefix_overlaid hcall h₁
  have hold : (∀ key ∈ st.handed, st'.heap.value key.1 = key.2) ↔
      KeysSpared grow pre st call := by
    refine forall₂_congr fun key hkey => ?_
    rw [← hintact key hkey, Heap.value_eq_iff]
    refine forall₂_congr fun i _ => ?_
    rw [hover.2 key.1 (hvalid.handed key hkey)]
    cases pre.roomIndex key.1 i with
    | none => simp
    | some j =>
      cases hleft : leftByCall grow pre st.heap call j with
      | none => simp [hleft]
      | some b =>
        simp only [Option.bind_some, hleft, Option.getD_some, Option.some.injEq, forall_eq']
        exact eq_comm
  unfold KeysIntact
  rcases hhanded with hsame | ⟨key, -, hmore⟩
  · rw [hsame, hold]
  · rw [hmore, List.forall_mem_append, List.forall_mem_singleton, hold]
    exact and_iff_left rfl

end Keys

/-- When the bounds that `Iterator` hands to its parent are right, and when the keys that `Set` has
handed to it stay as they are. -/
theorem prefix_slices_iff (grow : ℕ → ℕ) (pre : Slice) :
    (∀ h start stop, h.Valid pre → ValidArg h start → ValidArg h stop →
      (BoundsRight grow pre h start stop ↔ BoundsApart pre h start stop)) ∧
    ∀ h history st, h.Valid pre → Run (callPrefix grow pre) ⟨h, []⟩ history st →
      Run.Meets ValidCall history →
      (Run.Always KeysIntact history st ↔ Run.Meets (KeysSpared grow pre) history) := by
  refine ⟨fun h start stop hpre hstart _ => boundsRight_iff hpre hstart, ?_⟩
  intro h history st hpre hrun hcalls
  exact Run.always_iff (KeysValid pre) ⟨hpre, by simp⟩ (by simp [KeysIntact])
    (fun hvalid hcall htaken => hvalid.step hcall htaken)
    (fun hvalid hintact hcall htaken => keysIntact_step_iff hvalid hintact hcall htaken) hrun hcalls

/-! ## A prefix with capacity for two more bytes -/

/-- The prefix is `7`, with room behind it; the other arrays hold their own number. -/
def roomyHeap : Heap Byte where
  cell array i := if array = 0 then (if i = 0 then 7 else 0) else Fin.ofNat 256 array
  next := 3

/-- The prefix. -/
def roomyPrefix : Slice := ⟨0, 0, 1, 3, by decide⟩

/-- One byte that is the number of the array. -/
def oneByte (array : ℕ) : Slice := ⟨array, 0, 1, 1, le_rfl⟩

/-- An iterator from 1 to 2 is asked for, but the parent is given the same bound twice; and a key that
was set changes when another one is read. -/
theorem prefix_slices_overwritten :
    ¬ BoundsRight id roomyPrefix roomyHeap (some (oneByte 1)) (some (oneByte 2)) ∧
      ∃ history st, Run (callPrefix id roomyPrefix) ⟨roomyHeap, []⟩ history st ∧
        Run.Meets ValidCall history ∧ ¬ KeysIntact st := by
  refine ⟨fun h => ?_, ?_⟩
  · have hbound := (h _ _ _ rfl).2
    revert hbound
    decide
  · obtain ⟨st, hrun, hchanged⟩ := Run.of_leadsTo (callPrefix id roomyPrefix) ⟨roomyHeap, []⟩
      [.set (oneByte 1), .get (oneByte 2)] (fun st => !decide (KeysIntact st)) (by decide +kernel)
    refine ⟨_, st, hrun, by decide +kernel, ?_⟩
    simpa using hchanged

end Tepleton.Store
