import Mathlib

/-!
# Fixed-width numerals sort like numbers

`bigEndian base width n` writes `n` with `width` digits, most significant first.  On numbers that
fit, the lexicographic order of the numerals is the order of the numbers (`bigEndian_lt_iff`), and
numerals of one width can be put one after the other (`append_lt_append_iff`), so that a key built
from several numbers sorts by the first, then by the second, and so on.
-/

namespace Tepleton.Lib

/-- The last `width` digits of `n`, most significant first. -/
def bigEndian (base : ℕ) : ℕ → ℕ → List ℕ
  | 0, _ => []
  | width + 1, n => n / base ^ width % base :: bigEndian base width n

@[simp] theorem length_bigEndian (base width n : ℕ) :
    (bigEndian base width n).length = width := by
  induction width with
  | zero => rfl
  | succ width ih => simp [bigEndian, ih]

theorem getElem_bigEndian {base width n i : ℕ} (hi : i < (bigEndian base width n).length) :
    (bigEndian base width n)[i] = n / base ^ (width - 1 - i) % base := by
  induction width generalizing i with
  | zero => simp [bigEndian] at hi
  | succ width ih =>
    cases i with
    | zero => simp [bigEndian]
    | succ i =>
      have hi' : i < (bigEndian base width n).length := by simpa [bigEndian] using hi
      have hexp : width - (i + 1) = width - 1 - i := by omega
      simp [bigEndian, ih hi', hexp]

theorem lt_of_mem_bigEndian {base width n d : ℕ} (hbase : 0 < base)
    (hd : d ∈ bigEndian base width n) : d < base := by
  induction width with
  | zero => simp [bigEndian] at hd
  | succ width ih =>
    rcases List.mem_cons.mp hd with rfl | hd
    · exact Nat.mod_lt _ hbase
    · exact ih hd

theorem bigEndian_mod (base width n : ℕ) {k : ℕ} (hk : width ≤ k) :
    bigEndian base width (n % base ^ k) = bigEndian base width n := by
  induction width with
  | zero => rfl
  | succ width ih =>
    have hdigit : n % base ^ k / base ^ width % base = n / base ^ width % base := by
      obtain ⟨m, rfl⟩ : ∃ m, k = width + (m + 1) := ⟨k - width - 1, by omega⟩
      rw [pow_add, Nat.mod_mul_right_div_self, pow_succ']
      exact Nat.mod_mod_of_dvd _ (Dvd.intro _ rfl)
    rw [bigEndian, bigEndian, hdigit, ih (by omega)]

theorem bigEndian_add (base width rest n : ℕ) :
    bigEndian base (width + rest) n =
      bigEndian base width (n / base ^ rest) ++ bigEndian base rest n := by
  induction width with
  | zero => rw [Nat.zero_add, bigEndian, List.nil_append]
  | succ width ih =>
    rw [Nat.add_right_comm, bigEndian, bigEndian, ih, Nat.div_div_eq_div_mul, ← pow_add,
      Nat.add_comm rest width, List.cons_append]

theorem bigEndian_lt_iff {base width n m : ℕ} (hbase : 0 < base) (hn : n < base ^ width)
    (hm : m < base ^ width) : bigEndian base width n < bigEndian base width m ↔ n < m := by
  induction width generalizing n m with
  | zero => simp_all [bigEndian]
  | succ width ih =>
    have hpos : 0 < base ^ width := Nat.pow_pos hbase
    have hn' : n / base ^ width < base :=
      Nat.div_lt_of_lt_mul (by rwa [← pow_succ])
    have hm' : m / base ^ width < base :=
      Nat.div_lt_of_lt_mul (by rwa [← pow_succ])
    have htail : bigEndian base width n < bigEndian base width m ↔
        n % base ^ width < m % base ^ width := by
      rw [← bigEndian_mod base width n le_rfl, ← bigEndian_mod base width m le_rfl]
      exact ih (Nat.mod_lt _ hpos) (Nat.mod_lt _ hpos)
    rw [bigEndian, bigEndian, List.cons_lt_cons_iff, htail, Nat.mod_eq_of_lt hn',
      Nat.mod_eq_of_lt hm']
    have hnd := Nat.div_add_mod n (base ^ width)
    have hmd := Nat.div_add_mod m (base ^ width)
    have hnr := Nat.mod_lt n hpos
    have hmr := Nat.mod_lt m hpos
    constructor
    · rintro (hlt | ⟨heq, hlt⟩)
      · calc n < base ^ width * (n / base ^ width + 1) := Nat.lt_mul_div_succ n hpos
          _ ≤ base ^ width * (m / base ^ width) := Nat.mul_le_mul_left _ hlt
          _ ≤ m := Nat.mul_div_le m _
      · rw [heq] at hnd
        omega
    · intro hlt
      rcases Nat.lt_trichotomy (n / base ^ width) (m / base ^ width) with h | h | h
      · exact Or.inl h
      · rw [h] at hnd
        exact Or.inr ⟨h, by omega⟩
      · exact absurd (Nat.div_le_div_right hlt.le) (not_le.mpr h)

theorem bigEndian_inj {base width n m : ℕ} (hbase : 0 < base) (hn : n < base ^ width)
    (hm : m < base ^ width) : bigEndian base width n = bigEndian base width m ↔ n = m := by
  constructor
  · intro h
    rcases Nat.lt_trichotomy n m with hlt | heq | hgt
    · exact absurd h ((bigEndian_lt_iff hbase hn hm).mpr hlt).ne
    · exact heq
    · exact absurd h.symm ((bigEndian_lt_iff hbase hm hn).mpr hgt).ne
  · rintro rfl
    rfl

variable {α β : Type*} [LinearOrder α] [LinearOrder β]

theorem append_lt_append_iff {a b c d : List α} (hlen : a.length = b.length) :
    a ++ c < b ++ d ↔ a < b ∨ a = b ∧ c < d := by
  induction a generalizing b with
  | nil =>
    obtain rfl : b = [] := by simpa using hlen.symm
    simp
  | cons x a ih =>
    cases b with
    | nil => simp at hlen
    | cons y b =>
      have htail := ih (b := b) (by simpa using hlen)
      simp only [List.cons_append, List.cons_lt_cons_iff, htail, List.cons.injEq]
      tauto

theorem map_lt_map_iff {f : α → β} {a b : List α}
    (hf : ∀ x ∈ a, ∀ y ∈ b, (f x < f y ↔ x < y) ∧ (f x = f y ↔ x = y)) :
    a.map f < b.map f ↔ a < b := by
  induction a generalizing b with
  | nil => cases b <;> simp
  | cons x a ih =>
    cases b with
    | nil => simp
    | cons y b =>
      have hhead := hf x (by simp) y (by simp)
      have htail := ih (b := b) fun x' hx' y' hy' => hf x' (by simp [hx']) y' (by simp [hy'])
      simp only [List.map_cons, List.cons_lt_cons_iff, hhead.1, hhead.2, htail]

theorem map_eq_map_iff {f : α → β} {a b : List α} (hlen : a.length = b.length)
    (hf : ∀ x ∈ a, ∀ y ∈ b, (f x < f y ↔ x < y) ∧ (f x = f y ↔ x = y)) :
    a.map f = b.map f ↔ a = b := by
  induction a generalizing b with
  | nil =>
    obtain rfl : b = [] := by simpa using hlen.symm
    simp
  | cons x a ih =>
    cases b with
    | nil => simp at hlen
    | cons y b =>
      have htail := ih (by simpa using hlen)
        fun x' hx' y' hy' => hf x' (by simp [hx']) y' (by simp [hy'])
      simp only [List.map_cons, List.cons.injEq, (hf x (by simp) y (by simp)).2, htail]

theorem replicate_append_digits_reverse {width n : ℕ} (hn : n < 10 ^ width) :
    List.replicate (width - (Nat.digits 10 n).length) 0 ++ (Nat.digits 10 n).reverse =
      bigEndian 10 width n := by
  have hlen : (Nat.digits 10 n).length ≤ width :=
    (Nat.digits_length_le_iff (by norm_num) n).mpr hn
  apply List.ext_getElem
  · simp only [List.length_append, List.length_replicate, List.length_reverse, length_bigEndian]
    omega
  · intro i hleft hright
    rw [getElem_bigEndian, ← Nat.getD_digits n _ (by norm_num)]
    rw [length_bigEndian] at hright
    rcases Nat.lt_or_ge i (width - (Nat.digits 10 n).length) with hpad | hdigit
    · rw [List.getElem_append_left (by simpa using hpad), List.getElem_replicate,
        List.getD_eq_default _ _ (by omega)]
    · rw [List.getElem_append_right (by simpa using hdigit), List.getElem_reverse,
        List.getD_eq_getElem _ _ (by omega)]
      congr 1
      simp only [List.length_replicate]
      omega

end Tepleton.Lib
