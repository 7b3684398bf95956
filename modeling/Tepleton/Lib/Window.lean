import Mathlib

/-!
# Sliding windows in a ring of slots

A ring of `W` slots holds the last `W` of a sequence of values: the value with number `j` is in slot
`j % W`, where it stays until the value with number `j + W` replaces it.  Slots that were not used yet
are blank.  With flags as values, the number of flags that are set in the window changes by what is
written and what is replaced (`Ring.count_recent`), and it is the number of slots that are set
(`Ring.count_slots`).
-/

namespace Tepleton.Lib

variable {α : Type}

/-- The last `W` values of a sequence. -/
def recent (W : ℕ) (xs : List α) : List α := xs.drop (xs.length - W)

theorem length_recent_le (W : ℕ) (xs : List α) : (recent W xs).length ≤ W := by
  rw [recent, List.length_drop]
  omega

/-- The slots hold the last `W` values. -/
structure Ring (W : ℕ) (blank : α) (xs : List α) (slot : ℕ → α) : Prop where
  kept {j : ℕ} {x : α} (hx : xs[j]? = some x) (hrecent : xs.length ≤ j + W) : slot (j % W) = x
  unused {i : ℕ} (hlow : xs.length ≤ i) (hi : i < W) : slot i = blank

namespace Ring

variable {W : ℕ} {blank : α} {xs : List α} {slot : ℕ → α}

theorem nil (h : ∀ i, slot i = blank) : Ring W blank [] slot :=
  ⟨fun hx => by simp at hx, fun {i} _ _ => h i⟩

theorem congr {slot' : ℕ → α} (h : Ring W blank xs slot) (hsame : ∀ i, slot' i = slot i) :
    Ring W blank xs slot' :=
  ⟨fun hx hrecent => (hsame _).trans (h.kept hx hrecent),
    fun hlow hi => (hsame _).trans (h.unused hlow hi)⟩

theorem snoc (h : Ring W blank xs slot) (x : α) :
    Ring W blank (xs ++ [x]) (Function.update slot (xs.length % W) x) := by
  constructor
  · intro j y hy hrecent
    rw [List.length_append, List.length_singleton] at hrecent
    rcases Nat.lt_trichotomy j xs.length with hlt | rfl | hgt
    · -- an older value is in another slot, because fewer than `W` values came after it
      have hne : j % W ≠ xs.length % W := by
        intro hmod
        have hdvd : W ∣ xs.length - j := (Nat.modEq_iff_dvd' hlt.le).mp hmod
        have hle := Nat.le_of_dvd (by omega) hdvd
        omega
      rw [Function.update_of_ne hne]
      rw [List.getElem?_append_left hlt] at hy
      exact h.kept hy (by omega)
    · rw [Function.update_self]
      rw [List.getElem?_append_right le_rfl] at hy
      simpa using hy
    · rw [List.getElem?_eq_none (by simp; omega)] at hy
      cases hy
  · intro i hlow hi
    rw [List.length_append, List.length_singleton] at hlow
    rw [Nat.mod_eq_of_lt (by omega), Function.update_of_ne (by omega)]
    exact h.unused (by omega) hi

/-- The flags that are set in the window after the next one is written: the one that is replaced does
not count any more. -/
theorem count_recent {xs : List Bool} {slot : ℕ → Bool} (hW : 0 < W) (h : Ring W false xs slot)
    (x : Bool) : (recent W (xs ++ [x])).count true + (slot (xs.length % W)).toNat =
      (recent W xs).count true + x.toNat := by
  have hcount : ∀ (ys : List Bool) (y : Bool), (ys ++ [y]).count true = ys.count true + y.toNat := by
    intro ys y
    cases y <;> simp
  by_cases hfull : W ≤ xs.length
  · have hlt : xs.length - W < xs.length := by omega
    have hslot : slot (xs.length % W) = xs[xs.length - W] := by
      have hkept := h.kept (List.getElem?_eq_getElem hlt) (by omega)
      rwa [← Nat.add_mod_right, Nat.sub_add_cancel hfull] at hkept
    have hold : recent W xs = xs[xs.length - W] :: xs.drop (xs.length - W + 1) :=
      List.drop_eq_getElem_cons hlt
    have hnew : recent W (xs ++ [x]) = xs.drop (xs.length - W + 1) ++ [x] := by
      rw [recent, List.length_append, List.length_singleton, List.drop_append_of_le_length (by omega)]
      congr 2
      omega
    rw [hold, hnew, hslot, hcount]
    cases xs[xs.length - W]
    · simp
    · simp
      omega
  · have hslot : slot (xs.length % W) = false := by
      rw [Nat.mod_eq_of_lt (by omega)]
      exact h.unused le_rfl (by omega)
    have hall : ∀ ys : List Bool, ys.length ≤ W → recent W ys = ys := by
      intro ys hys
      rw [recent, Nat.sub_eq_zero_of_le hys, List.drop_zero]
    rw [hall xs (by omega), hall (xs ++ [x]) (by simp; omega), hslot, hcount]
    rfl

theorem replicate_append (h : Ring W blank xs slot) :
    Ring W blank (List.replicate W blank ++ xs) slot := by
  constructor
  · intro j x hx hrecent
    rw [List.length_append, List.length_replicate] at hrecent
    by_cases hj : j < W
    · have hblank : blank = x := by
        simpa [List.getElem?_append_left, List.getElem?_replicate, hj] using hx
      rw [Nat.mod_eq_of_lt hj, h.unused (by omega) hj, hblank]
    · rw [List.getElem?_append_right (by simpa using hj), List.length_replicate] at hx
      have hkept := h.kept hx (by omega)
      rwa [← Nat.add_mod_right, Nat.sub_add_cancel (by omega)] at hkept
  · intro i hlow hi
    rw [List.length_append, List.length_replicate] at hlow
    omega

theorem count_shift {p : ℕ → Prop} [DecidablePred p] (hp : ∀ j, p (W + j) ↔ p j) (m : ℕ) :
    Nat.count (fun i => p (m + i)) W = Nat.count p W := by
  have hsplit := Nat.count_add p m W
  have hsplit' := Nat.count_add p W m
  have hsame : Nat.count (fun j => p (W + j)) m = Nat.count p m := by
    simp only [hp]
  rw [Nat.add_comm W m, hsame] at hsplit'
  omega

theorem count_map_range (f : ℕ → Bool) (n : ℕ) :
    ((List.range n).map f).count true = Nat.count (fun i => f i = true) n := by
  induction n with
  | zero => rfl
  | succ n ih =>
    rw [List.range_succ, List.map_append, List.count_append, ih, Nat.count_succ]
    cases hf : f n <;> simp [hf]

/-- The flags in the window are the flags in the slots. -/
theorem count_slots {xs : List Bool} {slot : ℕ → Bool} (h : Ring W false xs slot) :
    Nat.count (fun i => slot i = true) W = (recent W xs).count true := by
  have hpad := h.replicate_append
  have hlength : (List.replicate W false ++ xs).length = xs.length + W := by
    rw [List.length_append, List.length_replicate, Nat.add_comm]
  -- the window of the padded sequence, slot by slot
  have hwindow : (List.replicate W false ++ xs).drop xs.length =
      (List.range W).map fun i => slot ((xs.length + i) % W) := by
    apply List.ext_getElem
    · simp
    · intro i hi hi'
      have hiW : i < W := by simpa using hi'
      rw [List.getElem_drop, List.getElem_map, List.getElem_range]
      exact (hpad.kept (List.getElem?_eq_getElem _) (by omega)).symm
  have hrecent : ((List.replicate W false ++ xs).drop xs.length).count true =
      (recent W xs).count true := by
    rw [List.drop_append, List.drop_replicate, List.length_replicate, List.count_append, recent,
      List.count_eq_zero.mpr (by simp), Nat.zero_add]
  have hmod : Nat.count (fun i => slot (i % W) = true) W = Nat.count (fun i => slot i = true) W := by
    simp only [Nat.count_eq_card_filter_range]
    congr 1
    refine Finset.filter_congr fun i hi => ?_
    rw [Nat.mod_eq_of_lt (Finset.mem_range.mp hi)]
  have hperiodic : ∀ j, slot ((W + j) % W) = true ↔ slot (j % W) = true := by simp
  have hshift := count_shift (p := fun j => slot (j % W) = true) hperiodic xs.length
  rw [← hrecent, hwindow, count_map_range, hshift, hmod]

end Ring

end Tepleton.Lib
