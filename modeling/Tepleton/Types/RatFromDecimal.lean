import Tepleton.Types.Strconv

/-!
# `NewRatFromDecimal`

The text of a decimal is cut at the point, the two parts are read as one integer and divided by the
power of ten.  Three things go wrong: the first byte of an empty text is read, `Atoi` takes a sign of
its own after the one that was cut off, and the power of ten is narrowed to 64 bits.
`readsDecimal_iff` says that nothing else does.
-/

namespace Tepleton

/-- The error of `NewRatFromDecimal` for a text of another form. -/
def errNotADecimal : SdkError := ⟨6, "not a decimal string"⟩

/-- Its error for a fraction that is too long. -/
def errTooManyDecimals : SdkError := ⟨6, "string has too many decimals"⟩

/-- `NewRat` and `NewRatFromBigInt` with one denominator. -/
def newRat (num denom : ℤ) : Outcome ℚ := quo num denom

/-- The second half of `NewRatFromDecimal`: the numerator is read with `Atoi`, and with `SetString`
if that reports a number out of range. -/
def newRatFromNumeral (neg : Bool) (numStr : Bytes) (denom : ℤ) : Outcome ℚ :=
  match atoi numStr with
  | .error .valueOutOfRange =>
    match setString numStr with
    | none => .error (.error errNotADecimal)
    | some numBig => newRat (if neg then -numBig else numBig) denom
  | .error .invalidSyntax => .error (.error errNotADecimal)
  | .ok num => newRat (if neg then int64 (num * -1) else num) denom

/-- The text without one leading minus. -/
def afterMinus : Bytes → Bytes
  | [] => []
  | c :: rest => if c = 45 then rest else c :: rest

/-- Whether there was one. -/
def hasMinus (s : Bytes) : Bool := decide (s.head? = some 45)

def newRatFromDecimal (decimalStr : Bytes) (prec : ℤ) : Outcome ℚ :=
  -- the code reads `decimalStr[0]` first
  if decimalStr = [] then .error (.panic .indexOutOfRange)
  else
    match (afterMinus decimalStr).splitOn 46 with
    | [whole] =>
      if whole = [] then .error (.error errNotADecimal)
      else newRatFromNumeral (hasMinus decimalStr) whole 1
    | [whole, fraction] =>
      if whole = [] ∨ fraction = [] then .error (.error errNotADecimal)
      else if prec < fraction.length then .error (.error errTooManyDecimals)
      else
        -- `big.Int.Int64` keeps the lower 64 bits of the power
        newRatFromNumeral (hasMinus decimalStr) (whole ++ fraction) (int64 (10 ^ fraction.length))
    | _ => .error (.error errNotADecimal)

/-! ## Decimals -/

/-- The digits after the point, with the point if there are any. -/
def point (fraction : Bytes) : Bytes := if fraction = [] then [] else 46 :: fraction

/-- A decimal: a sign, the digits before the point and those after it. -/
structure Decimal where
  negative : Bool
  whole : Bytes
  fraction : Bytes
  isNumeral_whole : IsNumeral whole
  isDigit_fraction : ∀ b ∈ fraction, IsDigit b

namespace Decimal

/-- How it is written. -/
def text (d : Decimal) : Bytes := (if d.negative then [45] else []) ++ (d.whole ++ point d.fraction)

/-- The number it denotes. -/
def value (d : Decimal) : ℚ :=
  withSign d.negative (parseDecimal (d.whole ++ d.fraction)) / 10 ^ d.fraction.length

theorem isNumeral (d : Decimal) : IsNumeral (d.whole ++ d.fraction) := by
  refine ⟨List.append_ne_nil_of_left_ne_nil d.isNumeral_whole.1 _, fun b hb => ?_⟩
  rcases List.mem_append.mp hb with hb | hb
  · exact d.isNumeral_whole.2 b hb
  · exact d.isDigit_fraction b hb

theorem text_ne_nil (d : Decimal) : d.text ≠ [] := by
  unfold text
  simp [d.isNumeral_whole.1]

theorem minus_text (d : Decimal) :
    hasMinus d.text = d.negative ∧ afterMinus d.text = d.whole ++ point d.fraction := by
  obtain ⟨hne, hdigits⟩ := d.isNumeral_whole
  unfold text
  cases hneg : d.negative with
  | true => simp [hasMinus, afterMinus]
  | false =>
    cases hwhole : d.whole with
    | nil => exact absurd hwhole hne
    | cons c whole =>
      have hc : c ≠ 45 := by
        rintro rfl
        have hdigit := hdigits 45 (by simp [hwhole])
        revert hdigit
        decide
      simp [hasMinus, afterMinus, hc]

end Decimal

/-- What `NewRatFromDecimal` should do with a text: never panic, accept the decimals of at most `prec`
places and no other text, and return the number it denotes. -/
structure ReadsDecimal (prec : ℕ) (s : Bytes) : Prop where
  neverPanics : ∀ reason, newRatFromDecimal s prec ≠ .error (.panic reason)
  accepts : ∀ q, newRatFromDecimal s prec = .ok q ↔
    ∃ d : Decimal, d.text = s ∧ d.fraction.length ≤ prec ∧ q = d.value

/-- After at most one minus there is another sign, followed by digits with or without a point. -/
def SecondSign (prec : ℕ) (s : Bytes) : Prop :=
  ∃ sign ∈ [43, 45], ∃ whole fraction, afterMinus s = (sign :: whole) ++ point fraction ∧
    IsNumeral (whole ++ fraction) ∧ fraction.length ≤ prec

/-- The texts that are read as they should be: they are not empty, have no second sign, and a
decimal has at most 18 places, or it is zero and has at most 63. -/
structure Readable (prec : ℕ) (s : Bytes) : Prop where
  nonempty : s ≠ []
  oneSign : ¬ SecondSign prec s
  places : ∀ d : Decimal, d.text = s → d.fraction.length ≤ prec →
    d.fraction.length ≤ 18 ∨ d.fraction.length ≤ 63 ∧ d.value = 0

/-! ## Powers of ten in 64 bits -/

theorem int64_pow_ten_eq_iff (k : ℕ) : int64 (10 ^ k) = 10 ^ k ↔ k ≤ 18 := by
  constructor
  · intro heq
    by_contra hk
    have hlarge : (10 : ℤ) ^ 19 ≤ 10 ^ k := pow_le_pow_right₀ (by norm_num) (by omega)
    have hrange := (int64_range (10 ^ k)).2
    rw [heq] at hrange
    exact absurd (hlarge.trans_lt hrange) (by norm_num)
  · intro hk
    have hpos : (0 : ℤ) < 10 ^ k := by positivity
    have hsmall : (10 : ℤ) ^ k ≤ 10 ^ 18 := pow_le_pow_right₀ (by norm_num) hk
    exact int64_eq_self (by linarith) (hsmall.trans_lt (by norm_num))

theorem int64_pow_ten_eq_zero_iff (k : ℕ) : int64 (10 ^ k) = 0 ↔ 64 ≤ k := by
  have hcoprime : Nat.Coprime (2 ^ 64) (5 ^ k) := Nat.Coprime.pow _ _ (by norm_num)
  have hsplit : (10 : ℤ) ^ k = ((2 ^ k * 5 ^ k : ℕ) : ℤ) := by
    rw [← mul_pow]
    norm_num
  unfold int64
  rw [← Int.dvd_iff_bmod_eq_zero, hsplit, Int.natCast_dvd_natCast, hcoprime.dvd_mul_right,
    Nat.pow_dvd_pow_iff_le_right (by norm_num)]

/-! ## The numerator -/

section Numerator

variable {neg : Bool} {numStr : Bytes} {denom : ℤ}

theorem newRatFromNumeral_of_none (h : setString numStr = none) :
    newRatFromNumeral neg numStr denom = .error (.error errNotADecimal) := by
  obtain ⟨err, herr⟩ := atoi_of_setString_eq_none h
  unfold newRatFromNumeral
  rw [herr]
  cases err with
  | invalidSyntax => rfl
  | valueOutOfRange => simp only [h]

theorem newRatFromNumeral_of_some (neg : Bool) (denom : ℤ) {v : ℤ} (h : setString numStr = some v) :
    ∃ num, newRatFromNumeral neg numStr denom = newRat num denom ∧
      (0 ≤ v → num = if neg then -v else v) := by
  unfold newRatFromNumeral
  rw [atoi_of_setString h]
  by_cases hfits : -2 ^ 63 ≤ v ∧ v < 2 ^ 63
  · rw [if_pos hfits]
    refine ⟨_, rfl, fun hv => ?_⟩
    rw [mul_neg_one, int64_eq_self (by omega) (by omega)]
  · rw [if_neg hfits]
    simp only [h]
    exact ⟨_, rfl, fun _ => rfl⟩

theorem newRatFromNumeral_of_isNumeral (h : IsNumeral numStr) :
    newRatFromNumeral neg numStr denom = newRat (withSign neg (parseDecimal numStr)) denom := by
  obtain ⟨num, hnum, hvalue⟩ := newRatFromNumeral_of_some neg denom (setString_of_isNumeral h)
  rw [hnum, hvalue (Int.natCast_nonneg _), withSign]

end Numerator

/-! ## Cutting the text -/

section Text

variable {prec : ℕ} {s whole fraction : Bytes}

theorem point_notMem_of_isDigit (h : ∀ b ∈ s, IsDigit b) : 46 ∉ s := by
  intro hmem
  have hdigit := h 46 hmem
  revert hdigit
  decide

theorem newRatFromDecimal_of_parts (hs : s ≠ []) (htext : afterMinus s = whole ++ point fraction)
    (hwhole : whole ≠ []) (hdigits : 46 ∉ whole ++ fraction) (hprec : fraction.length ≤ prec) :
    newRatFromDecimal s prec =
      newRatFromNumeral (hasMinus s) (whole ++ fraction) (int64 (10 ^ fraction.length)) := by
  rw [List.mem_append, not_or] at hdigits
  obtain ⟨hleft, hright⟩ := hdigits
  unfold newRatFromDecimal
  rw [if_neg hs, htext]
  by_cases hfraction : fraction = []
  · have hsplit : (whole ++ point fraction).splitOn 46 = [whole] := by
      have hcut := @List.splitOn_intercalate _ [whole] _ _ 46 (by simpa using hleft) (by simp)
      simpa [hfraction, point, List.intercalate] using hcut
    rw [hsplit]
    dsimp only
    rw [if_neg hwhole, hfraction, List.append_nil]
    rfl
  · have hsplit : (whole ++ point fraction).splitOn 46 = [whole, fraction] := by
      have hcut := @List.splitOn_intercalate _ [whole, fraction] _ _ 46 (by simp [hleft, hright])
        (by simp)
      simpa [hfraction, point, List.intercalate] using hcut
    rw [hsplit]
    dsimp only
    rw [if_neg (not_or.mpr ⟨hwhole, hfraction⟩), if_neg (by omega)]

/-- A text that is not empty is read as the digits around its point, or refused. -/
theorem newRatFromDecimal_cases (prec : ℕ) (hs : s ≠ []) :
    (∃ err, newRatFromDecimal s prec = .error (.error err)) ∨
      ∃ whole fraction, afterMinus s = whole ++ point fraction ∧ whole ≠ [] ∧
        fraction.length ≤ prec ∧ newRatFromDecimal s prec =
          newRatFromNumeral (hasMinus s) (whole ++ fraction) (int64 (10 ^ fraction.length)) := by
  have hjoin : [46].intercalate ((afterMinus s).splitOn 46) = afterMinus s :=
    List.intercalate_splitOn 46
  unfold newRatFromDecimal
  rw [if_neg hs]
  split
  case h_1 whole hparts =>
    split_ifs with hwhole
    · exact .inl ⟨_, rfl⟩
    · rw [hparts] at hjoin
      refine .inr ⟨whole, [], ?_, hwhole, Nat.zero_le _, ?_⟩
      · simpa [List.intercalate, point] using hjoin.symm
      · rw [List.append_nil]
        rfl
  case h_2 whole fraction hparts =>
    split_ifs with hempty hlong
    · exact .inl ⟨_, rfl⟩
    · exact .inl ⟨_, rfl⟩
    · obtain ⟨hwhole, hfraction⟩ := not_or.mp hempty
      rw [hparts] at hjoin
      refine .inr ⟨whole, fraction, ?_, hwhole, by omega, rfl⟩
      simpa [List.intercalate, point, hfraction] using hjoin.symm
  case h_3 =>
    exact .inl ⟨_, rfl⟩

theorem newRatFromDecimal_text (d : Decimal) (hprec : d.fraction.length ≤ prec) :
    newRatFromDecimal d.text prec =
      newRat (withSign d.negative (parseDecimal (d.whole ++ d.fraction)))
        (int64 (10 ^ d.fraction.length)) := by
  obtain ⟨hneg, hafter⟩ := d.minus_text
  rw [newRatFromDecimal_of_parts d.text_ne_nil hafter d.isNumeral_whole.1
    (point_notMem_of_isDigit d.isNumeral.2) hprec, newRatFromNumeral_of_isNumeral d.isNumeral, hneg]

theorem exists_decimal (htext : afterMinus s = whole ++ point fraction) (hwhole : whole ≠ [])
    (hdigits : ∀ b ∈ whole ++ fraction, IsDigit b) :
    ∃ d : Decimal, d.text = s ∧ d.whole = whole ∧ d.fraction = fraction := by
  rw [List.forall_mem_append] at hdigits
  refine ⟨⟨hasMinus s, whole, fraction, ⟨hwhole, hdigits.1⟩, hdigits.2⟩, ?_, rfl, rfl⟩
  unfold Decimal.text
  dsimp only
  rw [← htext]
  cases s with
  | nil => rfl
  | cons c rest =>
    by_cases hc : c = 45
    · simp [hasMinus, afterMinus, hc]
    · simp [hasMinus, afterMinus, hc]

end Text

/-! ## Which texts are read as they should be -/

variable {prec : ℕ} {s : Bytes}

theorem SecondSign.not_refused (h : SecondSign prec s) (err : SdkError) :
    newRatFromDecimal s prec ≠ .error (.error err) := by
  obtain ⟨sign, hsign, whole, fraction, htext, hnumeral, hprec⟩ := h
  have hs : s ≠ [] := by
    rintro rfl
    cases htext
  have hsplit : splitSign (sign :: whole ++ fraction) = (decide (sign = 45), whole ++ fraction) := by
    fin_cases hsign <;> rfl
  have hread : setString (sign :: whole ++ fraction) =
      some (withSign (decide (sign = 45)) (parseDecimal (whole ++ fraction))) := by
    rw [setString_eq_some, hsplit]
    exact ⟨hnumeral, rfl⟩
  have hpoint : 46 ∉ sign :: whole ++ fraction := by
    rw [List.cons_append, List.mem_cons, not_or]
    refine ⟨?_, point_notMem_of_isDigit hnumeral.2⟩
    fin_cases hsign <;> decide
  obtain ⟨num, hnum, -⟩ := newRatFromNumeral_of_some (hasMinus s)
    (int64 (10 ^ fraction.length)) hread
  rw [newRatFromDecimal_of_parts hs htext (by simp) hpoint hprec, hnum]
  unfold newRat quo
  split <;> simp

theorem SecondSign.not_decimal (h : SecondSign prec s) (d : Decimal) : d.text ≠ s := by
  rintro rfl
  obtain ⟨sign, hsign, whole, fraction, htext, -, -⟩ := h
  obtain ⟨hne, hdigits⟩ := d.isNumeral_whole
  rw [d.minus_text.2] at htext
  cases hwhole : d.whole with
  | nil => exact hne hwhole
  | cons c rest =>
    rw [hwhole] at htext
    obtain rfl : c = sign := (List.cons.inj htext).1
    have hdigit := hdigits c (by simp [hwhole])
    revert hdigit
    fin_cases hsign <;> decide

theorem places_of_newRat_eq {n : ℤ} {k : ℕ} (h : newRat n (int64 (10 ^ k)) = .ok (n / 10 ^ k)) :
    k ≤ 18 ∨ k ≤ 63 ∧ (n : ℚ) / 10 ^ k = 0 := by
  obtain ⟨hdenom, hvalue⟩ := quo_eq_ok.mp h
  have hdenom' : int64 (10 ^ k) ≠ 0 := by exact_mod_cast hdenom
  rw [Ne, int64_pow_ten_eq_zero_iff] at hdenom'
  by_cases hn : (n : ℚ) = 0
  · exact .inr ⟨by omega, by rw [hn, zero_div]⟩
  · left
    rw [div_eq_div_iff hdenom (by positivity)] at hvalue
    have hpow : (10 : ℚ) ^ k = int64 (10 ^ k) := mul_left_cancel₀ hn hvalue
    rw [← int64_pow_ten_eq_iff]
    exact_mod_cast hpow.symm

theorem newRat_eq_of_places {n : ℤ} {k : ℕ} (h : k ≤ 18 ∨ k ≤ 63 ∧ (n : ℚ) / 10 ^ k = 0) :
    newRat n (int64 (10 ^ k)) = .ok (n / 10 ^ k) := by
  rcases h with hk | ⟨hk, hzero⟩
  · rw [(int64_pow_ten_eq_iff k).mpr hk]
    exact quo_eq_ok.mpr ⟨by positivity, by push_cast; rfl⟩
  · have hn : (n : ℚ) = 0 := by
      rcases div_eq_zero_iff.mp hzero with hn | hpow
      · exact hn
      · exact absurd hpow (by positivity)
    have hdenom : int64 (10 ^ k) ≠ 0 := by
      rw [Ne, int64_pow_ten_eq_zero_iff]
      omega
    refine quo_eq_ok.mpr ⟨by exact_mod_cast hdenom, ?_⟩
    rw [hn, zero_div, zero_div]

theorem ReadsDecimal.readable (h : ReadsDecimal prec s) : Readable prec s where
  nonempty := by
    rintro rfl
    exact h.neverPanics .indexOutOfRange rfl
  oneSign := by
    intro hsign
    cases hresult : newRatFromDecimal s prec with
    | ok q =>
      obtain ⟨d, hd, -⟩ := (h.accepts q).mp hresult
      exact hsign.not_decimal d hd
    | error fault =>
      cases fault with
      | panic reason => exact h.neverPanics reason hresult
      | error err => exact hsign.not_refused err hresult
  places := by
    rintro d rfl hprec
    have hvalue := (h.accepts d.value).mpr ⟨d, rfl, hprec, rfl⟩
    rw [newRatFromDecimal_text d hprec] at hvalue
    exact places_of_newRat_eq hvalue

theorem Readable.readsDecimal (h : Readable prec s) : ReadsDecimal prec s := by
  have hdecimal : ∀ d : Decimal, d.text = s → d.fraction.length ≤ prec →
      newRatFromDecimal s prec = .ok d.value := by
    rintro d rfl hprec
    rw [newRatFromDecimal_text d hprec]
    exact newRat_eq_of_places (h.places d rfl hprec)
  -- either the text is refused or it is such a decimal
  have hcases : (∃ err, newRatFromDecimal s prec = .error (.error err)) ∨
      ∃ d : Decimal, d.text = s ∧ d.fraction.length ≤ prec := by
    rcases newRatFromDecimal_cases prec h.nonempty with hrefused |
      ⟨whole, fraction, htext, hwhole, hprec, hresult⟩
    · exact .inl hrefused
    cases hread : setString (whole ++ fraction) with
    | none => exact .inl ⟨_, hresult.trans (newRatFromNumeral_of_none hread)⟩
    | some v =>
      right
      obtain ⟨hnumeral, -⟩ := setString_eq_some.mp hread
      cases whole with
      | nil => exact absurd rfl hwhole
      | cons c whole =>
        by_cases hc : c ∈ [43, 45]
        · refine absurd ⟨c, hc, whole, fraction, htext, ?_, hprec⟩ h.oneSign
          fin_cases hc <;> exact hnumeral
        · have hunsigned : (splitSign (c :: whole ++ fraction)).2 = c :: whole ++ fraction := by
            simp only [List.mem_cons, List.not_mem_nil, or_false, not_or] at hc
            simp [splitSign, hc.1, hc.2]
          rw [hunsigned] at hnumeral
          obtain ⟨d, hd, -, hfraction⟩ := exists_decimal htext hwhole hnumeral.2
          exact ⟨d, hd, hfraction ▸ hprec⟩
  constructor
  · intro reason hpanic
    rcases hcases with ⟨err, herr⟩ | ⟨d, hd, hprec⟩
    · rw [herr] at hpanic
      cases hpanic
    · rw [hdecimal d hd hprec] at hpanic
      cases hpanic
  · intro q
    constructor
    · intro hq
      rcases hcases with ⟨err, herr⟩ | ⟨d, hd, hprec⟩
      · rw [herr] at hq
        cases hq
      · rw [hdecimal d hd hprec] at hq
        cases hq
        exact ⟨d, hd, hprec, rfl⟩
    · rintro ⟨d, hd, hprec, rfl⟩
      exact hdecimal d hd hprec

/-- The texts that `NewRatFromDecimal` reads as it should. -/
theorem readsDecimal_iff (prec : ℕ) (s : Bytes) : ReadsDecimal prec s ↔ Readable prec s :=
  ⟨ReadsDecimal.readable, Readable.readsDecimal⟩

/-- `"0.1000000000000000000"` is a decimal of 19 places.  The power of ten becomes negative, and so
does the result. -/
theorem newRatFromDecimal_misreads :
    newRatFromDecimal ([48] ++ 46 :: 49 :: List.replicate 18 48) 19 =
        .ok (10 ^ 18 / (10 ^ 19 - 2 ^ 64)) ∧
      ¬ ReadsDecimal 19 ([48] ++ 46 :: 49 :: List.replicate 18 48) := by
  refine ⟨by decide +kernel, fun h => ?_⟩
  have hplaces := h.readable.places
    ⟨false, [48], 49 :: List.replicate 18 48, by decide +kernel, by decide +kernel⟩ rfl
    (by decide +kernel)
  rcases hplaces with hfew | ⟨-, hzero⟩
  · exact absurd hfew (by decide +kernel)
  · exact absurd hzero (by decide +kernel)

/-- A second sign is accepted, and the empty text panics. -/
example : newRatFromDecimal [43, 53] 0 = .ok 5 ∧
    newRatFromDecimal [45, 43, 46, 53] 1 = .ok (-1 / 2) ∧
    newRatFromDecimal [] 0 = .error (.panic .indexOutOfRange) := by
  decide +kernel

end Tepleton
