import Mathlib

/-!
# Slices that share an array

A slice is a window on an array, with room behind it up to its capacity.  `append` writes into that
room if what is appended fits, and otherwise copies to a new array.  Everything an `append` does to
other slices is said by `read_append`: it changes what they have in that room.
-/

namespace Tepleton.Lib

universe u

variable {α : Type u}

/-- Arrays by number.  Those from `next` on are not in use. -/
structure Heap (α : Type u) where
  cell : ℕ → ℕ → α
  next : ℕ

/-- A window of `len` elements on an array, which may grow to `cap`. -/
structure Slice where
  array : ℕ
  offset : ℕ
  len : ℕ
  cap : ℕ
  len_le : len ≤ cap

namespace Slice

/-- The first place behind the window. -/
def room (s : Slice) : ℕ := s.offset + s.len

/-- So many elements can be appended in place. -/
def Fits (s : Slice) (n : ℕ) : Prop := s.len + n ≤ s.cap

instance (s : Slice) (n : ℕ) : Decidable (s.Fits n) := inferInstanceAs (Decidable (_ ≤ _))

/-- Where in the room behind `s` the element `i` of `t` lies, if it does. -/
def roomIndex (s t : Slice) (i : ℕ) : Option ℕ :=
  if t.array = s.array ∧ s.room ≤ t.offset + i then some (t.offset + i - s.room) else none

theorem roomIndex_self_of_lt (s : Slice) {i : ℕ} (hi : i < s.len) : s.roomIndex s i = none := by
  unfold roomIndex room
  rw [if_neg]
  omega

theorem roomIndex_of_array_ne {s t : Slice} (h : t.array ≠ s.array) (i : ℕ) :
    s.roomIndex t i = none := by
  unfold roomIndex
  rw [if_neg fun hi => h hi.1]

end Slice

namespace Heap

/-- Element `i` of a slice. -/
def read (h : Heap α) (s : Slice) (i : ℕ) : α := h.cell s.array (s.offset + i)

/-- The elements of a slice. -/
def value (h : Heap α) (s : Slice) : List α := (List.range s.len).map (h.read s)

/-- The array of the slice is in use. -/
def Valid (h : Heap α) (s : Slice) : Prop := s.array < h.next

instance (h : Heap α) (s : Slice) : Decidable (h.Valid s) := inferInstanceAs (Decidable (_ < _))

/-- The elements are copied to an array from a place on. -/
def write (h : Heap α) (array pos : ℕ) (xs : List α) : Heap α where
  cell a i := if a = array ∧ pos ≤ i then xs[i - pos]?.getD (h.cell a i) else h.cell a i
  next := h.next

/-- A new array with these elements and some capacity behind them. -/
def alloc (h : Heap α) (xs : List α) (spare : ℕ) : Heap α × Slice :=
  ({ h.write h.next 0 xs with next := h.next + 1 },
    ⟨h.next, 0, xs.length, xs.length + spare, Nat.le_add_right _ _⟩)

/-- `append`.  How much capacity a new array gets is left open. -/
def append (grow : ℕ → ℕ) (h : Heap α) (s : Slice) (xs : List α) : Heap α × Slice :=
  if hfits : s.Fits xs.length then
    (h.write s.array s.room xs, ⟨s.array, s.offset, s.len + xs.length, s.cap, hfits⟩)
  else h.alloc (h.value s ++ xs) (grow (s.len + xs.length))

/-- What an `append` leaves at a place of the room behind the slice. -/
def appended (s : Slice) (xs : List α) (j : ℕ) : Option α :=
  if s.Fits xs.length then xs[j]? else none

variable {grow : ℕ → ℕ} {h h' : Heap α} {s t : Slice} {xs : List α}

@[simp] theorem length_value (h : Heap α) (s : Slice) : (h.value s).length = s.len := by
  simp [value]

theorem getElem?_value (h : Heap α) (s : Slice) (i : ℕ) :
    (h.value s)[i]? = if i < s.len then some (h.read s i) else none := by
  unfold value
  split_ifs with hi
  · simp [hi]
  · simp [not_lt.mp hi]

theorem value_eq_iff : h'.value s = h.value s ↔ ∀ i < s.len, h'.read s i = h.read s i := by
  unfold value
  rw [List.map_inj_left]
  simp only [List.mem_range]

theorem value_eq_of_getElem? (hlength : xs.length = s.len)
    (hread : ∀ i < s.len, xs[i]? = some (h.read s i)) : h.value s = xs := by
  refine List.ext_getElem? fun i => ?_
  rw [getElem?_value]
  split_ifs with hi
  · exact (hread i hi).symm
  · exact (List.getElem?_eq_none (by omega)).symm

theorem read_alloc (ht : h.Valid t) (spare i : ℕ) : (h.alloc xs spare).1.read t i = h.read t i := by
  have hne : t.array ≠ h.next := Nat.ne_of_lt ht
  simp [alloc, write, read, hne]

theorem value_alloc (h : Heap α) (xs : List α) (spare : ℕ) :
    (h.alloc xs spare).1.value (h.alloc xs spare).2 = xs := by
  refine value_eq_of_getElem? rfl fun i hi => ?_
  have hi' : i < xs.length := hi
  simp [alloc, write, read, hi']

theorem valid_alloc (h : Heap α) (xs : List α) (spare : ℕ) :
    (h.alloc xs spare).1.Valid (h.alloc xs spare).2 := Nat.lt_succ_self _

theorem read_append (ht : h.Valid t) (i : ℕ) :
    (append grow h s xs).1.read t i = ((s.roomIndex t i).bind (appended s xs)).getD (h.read t i) := by
  unfold append appended Slice.roomIndex
  split_ifs with hfits hroom
  · simp only [read, write]
    rw [if_pos hroom, Option.bind_some]
  · simp only [read, write]
    rw [if_neg hroom, Option.bind_none, Option.getD_none]
  · rw [read_alloc ht]
    rfl
  · rw [read_alloc ht]
    rfl

theorem value_append_eq_iff (ht : h.Valid t) :
    (append grow h s xs).1.value t = h.value t ↔
      ∀ i < t.len, ∀ j, s.roomIndex t i = some j → ∀ x, appended s xs j = some x →
        h.read t i = x := by
  rw [value_eq_iff]
  refine forall₂_congr fun i _ => ?_
  rw [read_append ht]
  cases hroom : s.roomIndex t i with
  | none => simp
  | some j =>
    cases hx : appended s xs j with
    | none => simp [hx]
    | some x =>
      simp only [Option.bind_some, hx, Option.getD_some, Option.some.injEq, forall_eq']
      exact eq_comm

theorem value_append_self (hs : h.Valid s) : (append grow h s xs).1.value s = h.value s := by
  rw [value_eq_iff]
  intro i hi
  rw [read_append hs, s.roomIndex_self_of_lt hi]
  rfl

theorem value_append (h : Heap α) (s : Slice) (xs : List α) :
    (append grow h s xs).1.value (append grow h s xs).2 = h.value s ++ xs := by
  unfold append
  split_ifs with hfits
  · refine value_eq_of_getElem? (by simp) fun i hi => ?_
    by_cases hold : i < s.len
    · rw [List.getElem?_append_left (by simpa using hold), getElem?_value, if_pos hold]
      simp only [read, write, Slice.room]
      rw [if_neg (by omega)]
    · have hi' : i - s.len < xs.length := by
        dsimp only at hi
        omega
      have hplace : s.offset + i - (s.offset + s.len) = i - s.len := by omega
      rw [List.getElem?_append_right (by simpa using hold), length_value]
      simp only [read, write, Slice.room]
      rw [if_pos ⟨trivial, by omega⟩, hplace, List.getElem?_eq_getElem hi', Option.getD_some]
  · exact value_alloc h _ _

theorem valid_append_result (hs : h.Valid s) :
    (append grow h s xs).1.Valid (append grow h s xs).2 := by
  unfold append
  split_ifs
  · exact hs
  · exact valid_alloc h _ _

/-- Two results of `append` to one slice: the second keeps the first exactly if the first is a copy or
the two agree as far as both go. -/
theorem value_append_append_iff (hs : h.Valid s) (ys : List α) :
    (append grow (append grow h s xs).1 s ys).1.value (append grow h s xs).2 = h.value s ++ xs ↔
      (s.Fits xs.length → ∀ j x y, xs[j]? = some x → appended s ys j = some y → x = y) := by
  rw [← @value_append _ grow h s xs, value_append_eq_iff (valid_append_result hs)]
  by_cases hfits : s.Fits xs.length
  · -- the elements of `xs` lie in the room, in their order
    have hresult : append grow h s xs = (h.write s.array s.room xs,
        ⟨s.array, s.offset, s.len + xs.length, s.cap, hfits⟩) := dif_pos hfits
    have hread : ∀ {j x}, xs[j]? = some x →
        (h.write s.array s.room xs).cell s.array (s.room + j) = x := by
      intro j x hx
      simp [write, hx]
    rw [hresult]
    simp only [hfits, forall_const]
    constructor
    · intro hkeeps j x y hx hy
      have hj : j < xs.length := (List.getElem?_eq_some_iff.mp hx).1
      have hroom : s.roomIndex ⟨s.array, s.offset, s.len + xs.length, s.cap, hfits⟩ (s.len + j) =
          some j := by
        unfold Slice.roomIndex Slice.room
        rw [if_pos ⟨rfl, by dsimp only; omega⟩]
        simp only [Option.some.injEq]
        omega
      have hsame := hkeeps (s.len + j) (Nat.add_lt_add_left hj _) j hroom y hy
      rw [read, ← add_assoc] at hsame
      exact (hread hx).symm.trans hsame
    · intro hagree i hi j hroom y hy
      unfold Slice.roomIndex at hroom
      split_ifs at hroom with hin
      cases hroom
      have hplace : s.offset + i = s.room + (s.offset + i - s.room) := by
        have := hin.2
        dsimp only at this
        omega
      have hj : s.offset + i - s.room < xs.length := by
        have := hin.2
        dsimp only [Slice.room] at this hi ⊢
        omega
      have hx := List.getElem?_eq_getElem hj
      rw [read]
      dsimp only
      rw [hplace, hread hx]
      exact hagree _ _ _ hx hy
  · -- a copy is not in the room
    have hresult : append grow h s xs = h.alloc (h.value s ++ xs) (grow (s.len + xs.length)) :=
      dif_neg hfits
    have hne : (append grow h s xs).2.array ≠ s.array := by
      rw [hresult]
      exact Nat.ne_of_gt hs
    refine iff_of_true (fun i _ j hroom => ?_) fun h => absurd h hfits
    rw [Slice.roomIndex_of_array_ne hne] at hroom
    cases hroom

end Heap

end Tepleton.Lib
