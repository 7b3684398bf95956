import Tepleton.Types.Decimal

/-!
# Reading numerals

`strconv.Atoi` reads digit by digit into a 64-bit accumulator and reports the first thing that goes
wrong, a byte that is not a digit or an accumulator that overflows.  `big.Int.SetString` reads the
same texts without a bound.  `atoi_of_setString` says how the two are related.
-/

namespace Tepleton

/-- A decimal digit. -/
def IsDigit (b : Byte) : Prop := 48 ≤ b.val ∧ b.val ≤ 57

instance (b : Byte) : Decidable (IsDigit b) := inferInstanceAs (Decidable (_ ∧ _))

/-- One or more decimal digits. -/
def IsNumeral (s : Bytes) : Prop := s ≠ [] ∧ ∀ b ∈ s, IsDigit b

instance (s : Bytes) : Decidable (IsNumeral s) := inferInstanceAs (Decidable (_ ∧ _))

/-- `strconv.ErrSyntax` and `strconv.ErrRange`. -/
inductive NumError
  | invalidSyntax
  | valueOutOfRange
  deriving DecidableEq, Repr

/-- The loop of `strconv.ParseUint` in base 10 with 64 bits, from the accumulator `n` on. -/
def parseUintFrom (n : ℕ) : Bytes → Except NumError ℕ
  | [] => .ok n
  | c :: s =>
    if ¬ IsDigit c then .error .invalidSyntax
    else if (2 ^ 64 - 1) / 10 + 1 ≤ n then .error .valueOutOfRange
    else if 2 ^ 64 ≤ n * 10 + (c.val - 48) then .error .valueOutOfRange
    else parseUintFrom (n * 10 + (c.val - 48)) s

def parseUint (s : Bytes) : Except NumError ℕ :=
  if s = [] then .error .invalidSyntax else parseUintFrom 0 s

/-- A leading sign, whether it is a minus, and what follows. -/
def splitSign : Bytes → Bool × Bytes
  | [] => (false, [])
  | c :: s => if c = 43 then (false, s) else if c = 45 then (true, s) else (false, c :: s)

/-- The number with this sign and absolute value. -/
def withSign (neg : Bool) (n : ℕ) : ℤ := if neg then -n else n

/-- `strconv.Atoi`, that is `ParseInt` in base 10 with 64 bits. -/
def atoi (s : Bytes) : Except NumError ℤ :=
  match parseUint (splitSign s).2 with
  | .error err => .error err
  | .ok un =>
    if (splitSign s).1 = false ∧ 2 ^ 63 ≤ un then .error .valueOutOfRange
    else if (splitSign s).1 = true ∧ 2 ^ 63 < un then .error .valueOutOfRange
    else .ok (withSign (splitSign s).1 un)

/-- `big.Int.SetString` in base 10. -/
def setString (s : Bytes) : Option ℤ :=
  if IsNumeral (splitSign s).2 then some (withSign (splitSign s).1 (parseDecimal (splitSign s).2))
  else none

/-! ## The accumulator -/

/-- What the accumulator is in the end if it does not overflow. -/
def accumulate (n : ℕ) (s : Bytes) : ℕ := s.foldl (fun n b => n * 10 + (b.val - 48)) n

theorem le_accumulate (n : ℕ) (s : Bytes) : n ≤ accumulate n s := by
  induction s generalizing n with
  | nil => exact le_rfl
  | cons c s ih =>
    have hstep : n ≤ n * 10 + (c.val - 48) := by omega
    exact hstep.trans (ih _)

theorem accumulate_eq (n : ℕ) (s : Bytes) : accumulate n s = n * 10 ^ s.length + parseDecimal s := by
  induction s using List.reverseRecOn generalizing n with
  | nil => simp [accumulate, parseDecimal]
  | append_singleton s c ih =>
    have hlast : parseDecimal (s ++ [c]) = (c.val - 48) + 10 * parseDecimal s := by
      simp [parseDecimal, Nat.ofDigits_cons]
    have hstep : accumulate n (s ++ [c]) = accumulate n s * 10 + (c.val - 48) := by
      simp [accumulate]
    rw [hstep, hlast, ih, List.length_append, List.length_singleton, pow_succ]
    ring

variable {s : Bytes}

theorem parseUintFrom_of_digits (n : ℕ) (hs : ∀ b ∈ s, IsDigit b) (hn : n < 2 ^ 64) :
    parseUintFrom n s =
      if accumulate n s < 2 ^ 64 then .ok (accumulate n s) else .error .valueOutOfRange := by
  induction s generalizing n with
  | nil =>
    unfold parseUintFrom accumulate
    rw [List.foldl_nil, if_pos hn]
  | cons c s ih =>
    have hgrows : n * 10 + (c.val - 48) ≤ accumulate n (c :: s) := le_accumulate _ _
    unfold parseUintFrom
    rw [if_neg (not_not.mpr (hs c List.mem_cons_self))]
    by_cases hcutoff : (2 ^ 64 - 1) / 10 + 1 ≤ n
    · rw [if_pos hcutoff, if_neg (by omega)]
    by_cases hlarge : 2 ^ 64 ≤ n * 10 + (c.val - 48)
    · rw [if_neg hcutoff, if_pos hlarge, if_neg (by omega)]
    rw [if_neg hcutoff, if_neg hlarge]
    exact ih _ (fun b hb => hs b (List.mem_cons_of_mem _ hb)) (not_le.mp hlarge)

theorem parseUintFrom_fails (n : ℕ) (hs : ¬ ∀ b ∈ s, IsDigit b) :
    ∃ err, parseUintFrom n s = .error err := by
  induction s generalizing n with
  | nil => simp at hs
  | cons c s ih =>
    unfold parseUintFrom
    by_cases hc : IsDigit c
    · have htail : ¬ ∀ b ∈ s, IsDigit b := by
        intro htail
        exact hs (List.forall_mem_cons.mpr ⟨hc, htail⟩)
      rw [if_neg (not_not.mpr hc)]
      split
      · exact ⟨_, rfl⟩
      · split
        · exact ⟨_, rfl⟩
        · exact ih _ htail
    · rw [if_pos hc]
      exact ⟨_, rfl⟩

theorem parseUint_of_isNumeral (hs : IsNumeral s) :
    parseUint s =
      if parseDecimal s < 2 ^ 64 then .ok (parseDecimal s) else .error .valueOutOfRange := by
  unfold parseUint
  rw [if_neg hs.1, parseUintFrom_of_digits 0 hs.2 (by norm_num), accumulate_eq, zero_mul, zero_add]

theorem parseUint_fails (hs : ¬ IsNumeral s) : ∃ err, parseUint s = .error err := by
  unfold parseUint
  split_ifs with hempty
  · exact ⟨_, rfl⟩
  · exact parseUintFrom_fails 0 fun hdigits => hs ⟨hempty, hdigits⟩

/-! ## `Atoi` against `SetString` -/

theorem setString_eq_some {v : ℤ} :
    setString s = some v ↔
      IsNumeral (splitSign s).2 ∧ v = withSign (splitSign s).1 (parseDecimal (splitSign s).2) := by
  unfold setString
  split_ifs with hs
  · rw [Option.some.injEq, eq_comm]
    exact (and_iff_right hs).symm
  · simp [hs]

theorem atoi_of_setString {v : ℤ} (h : setString s = some v) :
    atoi s = if -2 ^ 63 ≤ v ∧ v < 2 ^ 63 then .ok v else .error .valueOutOfRange := by
  obtain ⟨hs, rfl⟩ := setString_eq_some.mp h
  unfold atoi
  rw [parseUint_of_isNumeral hs]
  generalize parseDecimal (splitSign s).2 = n
  cases hneg : (splitSign s).1 with
  | false =>
    rw [withSign, if_neg Bool.false_ne_true]
    by_cases hn : n < 2 ^ 63
    · rw [if_pos (by omega), if_pos (by omega)]
      dsimp only
      rw [if_neg (by omega), if_neg (by simp), withSign, if_neg Bool.false_ne_true]
    · rw [if_neg (show ¬ (_ ∧ _) by omega)]
      split_ifs with hfits
      · dsimp only
        rw [if_pos ⟨rfl, by omega⟩]
      · rfl
  | true =>
    rw [withSign, if_pos rfl]
    by_cases hn : n ≤ 2 ^ 63
    · rw [if_pos (by omega), if_pos (by omega)]
      dsimp only
      rw [if_neg (by simp), if_neg (by omega), withSign, if_pos rfl]
    · rw [if_neg (show ¬ (_ ∧ _) by omega)]
      split_ifs with hfits
      · dsimp only
        rw [if_neg (by simp), if_pos ⟨rfl, by omega⟩]
      · rfl

theorem atoi_of_setString_eq_none (h : setString s = none) : ∃ err, atoi s = .error err := by
  have hs : ¬ IsNumeral (splitSign s).2 := by
    intro hs
    rw [setString, if_pos hs] at h
    cases h
  obtain ⟨err, herr⟩ := parseUint_fails hs
  unfold atoi
  rw [herr]
  exact ⟨err, rfl⟩

theorem splitSign_of_isNumeral (hs : IsNumeral s) : splitSign s = (false, s) := by
  cases s with
  | nil => rfl
  | cons c s =>
    have hc : IsDigit c := hs.2 c List.mem_cons_self
    rw [splitSign, if_neg, if_neg]
    · rintro rfl
      revert hc
      decide
    · rintro rfl
      revert hc
      decide

theorem setString_of_isNumeral (hs : IsNumeral s) : setString s = some (parseDecimal s : ℤ) := by
  rw [setString_eq_some, splitSign_of_isNumeral hs]
  exact ⟨hs, rfl⟩

theorem isNumeral_decimal (n : ℕ) : IsNumeral (decimal n) := by
  refine ⟨?_, fun b hb => ⟨digit_of_mem_decimal hb, ?_⟩⟩
  · unfold decimal
    split_ifs with hn
    · simp
    · simp [Nat.digits_ne_nil_iff_ne_zero.mpr hn]
  · have := digit_lt_of_mem_decimal hb
    omega

end Tepleton
