import Tepleton.Types.Rational

/-!
# Numbers as text

What `%d` and `big.Rat.String` print.  A numeral can be read back, and it contains no slash, so that a
text that ends in a slash and a numeral determines what stands on both sides of it.
-/

namespace Tepleton

/-- `%d`. -/
def formatInt (n : ℤ) : Bytes := if n < 0 then 45 :: decimal n.natAbs else decimal n.natAbs

/-- `Rat.String`: numerator and denominator in lowest terms. -/
def ratString (r : ℚ) : Bytes := formatInt r.num ++ 47 :: formatInt r.den

/-- The number a numeral stands for. -/
def parseDecimal (bz : Bytes) : ℕ := Nat.ofDigits 10 (bz.reverse.map fun b => b.val - 48)

theorem val_toByte_digit {d : ℕ} (hd : d < 10) : (toByte (48 + d)).val = 48 + d :=
  Nat.mod_eq_of_lt (by omega)

theorem parseDecimal_decimal (n : ℕ) : parseDecimal (decimal n) = n := by
  unfold decimal
  split
  · rename_i hzero
    subst hzero
    rfl
  · have hdigits : ((Nat.digits 10 n).map fun d => toByte (48 + d)).map (fun b => b.val - 48) =
        Nat.digits 10 n := by
      rw [List.map_map]
      refine (List.map_congr_left fun d hd => ?_).trans (List.map_id _)
      have hbyte := val_toByte_digit (Nat.digits_lt_base (by norm_num) hd)
      simp only [Function.comp_apply, hbyte, id_eq]
      omega
    rw [parseDecimal, ← List.map_reverse, List.reverse_reverse, hdigits, Nat.ofDigits_digits]

theorem digit_of_mem_decimal {n : ℕ} {b : Byte} (hb : b ∈ decimal n) : 48 ≤ b.val := by
  unfold decimal at hb
  split at hb
  · rw [List.mem_singleton.mp hb]
    decide
  · obtain ⟨d, hd, rfl⟩ := List.mem_map.mp hb
    rw [val_toByte_digit (Nat.digits_lt_base (by norm_num) (List.mem_reverse.mp hd))]
    omega

theorem digit_lt_of_mem_decimal {n : ℕ} {b : Byte} (hb : b ∈ decimal n) : b.val < 58 := by
  unfold decimal at hb
  split at hb
  · rw [List.mem_singleton.mp hb]
    decide
  · obtain ⟨d, hd, rfl⟩ := List.mem_map.mp hb
    have hdigit : d < 10 := Nat.digits_lt_base (by norm_num) (List.mem_reverse.mp hd)
    rw [val_toByte_digit hdigit]
    omega

theorem slash_notMem_formatInt (n : ℤ) : 47 ∉ formatInt n := by
  have hdecimal : ∀ m : ℕ, 47 ∉ decimal m := by
    intro m hmem
    have hdigit := digit_of_mem_decimal hmem
    norm_num at hdigit
  unfold formatInt
  split
  · rw [List.mem_cons, not_or]
    exact ⟨by decide, hdecimal _⟩
  · exact hdecimal _

theorem formatInt_injective : Function.Injective formatInt := by
  have hminus : ∀ m k : ℕ, 45 :: decimal m ≠ decimal k := by
    intro m k heq
    have hdigit := digit_of_mem_decimal (n := k) (b := 45) (heq ▸ List.mem_cons_self)
    norm_num at hdigit
  have habs : ∀ {m k : ℕ}, decimal m = decimal k → m = k := by
    intro m k heq
    rw [← parseDecimal_decimal m, heq, parseDecimal_decimal]
  intro n n' h
  unfold formatInt at h
  split_ifs at h with hn hn' hn'
  · have := habs (List.cons.inj h).2
    omega
  · exact absurd h (hminus _ _)
  · exact absurd h.symm (hminus _ _)
  · have := habs h
    omega

theorem append_slash_formatInt_inj {text text' : Bytes} {n n' : ℤ} :
    text ++ 47 :: formatInt n = text' ++ 47 :: formatInt n' ↔ text = text' ∧ n = n' := by
  constructor
  · intro h
    -- from the end up to the first slash there is only the number
    have htake : ∀ (text : Bytes) (n : ℤ),
        (text ++ 47 :: formatInt n).reverse.takeWhile (· ≠ 47) = (formatInt n).reverse := by
      intro text n
      have hdigits : ∀ b ∈ (formatInt n).reverse, decide (b ≠ 47) = true := by
        intro b hb
        rw [decide_eq_true_eq]
        rintro rfl
        exact slash_notMem_formatInt n (List.mem_reverse.mp hb)
      rw [List.reverse_append, List.reverse_cons, List.append_assoc,
        List.takeWhile_append_of_pos hdigits, List.singleton_append,
        List.takeWhile_cons_of_neg (by simp), List.append_nil]
    have hnumber : (formatInt n).reverse = (formatInt n').reverse := by
      rw [← htake text n, h, htake text' n']
    obtain rfl := formatInt_injective (List.reverse_injective hnumber)
    exact ⟨List.append_cancel_right h, rfl⟩
  · rintro ⟨rfl, rfl⟩
    rfl

theorem ratString_injective : Function.Injective ratString := by
  intro r r' h
  obtain ⟨hnum, hden⟩ := append_slash_formatInt_inj.mp h
  exact Rat.ext (formatInt_injective hnum) (by exact_mod_cast hden)

end Tepleton
