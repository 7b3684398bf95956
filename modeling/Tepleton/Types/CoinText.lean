import Tepleton.Types.SortedCoins
import Tepleton.Types.Strconv

/-!
# Coins as text

`Coins.String` prints amounts and denominations between commas.  `ParseCoins` trims, splits, matches
each piece with a regular expression, converts the amounts with `Atoi`, sorts and validates.  What is
printed is read back as long as the amounts are `int64`s, and what is read is sorted and positive but
for a zero amount of the least denomination, which `IsValid` does not look at.

A text is a list of characters.  A byte of a Go string that is not part of a UTF-8 sequence is read as
the replacement character, which none of the classes below contains.
-/

namespace Tepleton.Coins

open Lib

/-! ## Characters -/

/-- `[[:digit:]]`. -/
def isDigit (c : Char) : Bool := decide (48 ≤ c.toNat ∧ c.toNat ≤ 57)

/-- `[[:alpha:]]`. -/
def isAlpha (c : Char) : Bool :=
  decide (65 ≤ c.toNat ∧ c.toNat ≤ 90 ∨ 97 ≤ c.toNat ∧ c.toNat ≤ 122)

/-- `[[:alnum:]]`. -/
def isAlnum (c : Char) : Bool := isDigit c || isAlpha c

/-- `[[:space:]]`. -/
def isBlank (c : Char) : Bool := decide (9 ≤ c.toNat ∧ c.toNat ≤ 13 ∨ c.toNat = 32)

def isSpace (c : Char) : Bool :=
  isBlank c || decide (0x2000 ≤ c.toNat ∧ c.toNat ≤ 0x200a ∨
    c.toNat ∈ [0x85, 0xa0, 0x1680, 0x2028, 0x2029, 0x202f, 0x205f, 0x3000])

def trimSpace (s : List Char) : List Char := (s.dropWhile isSpace).rdropWhile isSpace

/-- The bytes of a text in ASCII. -/
def asciiBytes (s : List Char) : Bytes := s.map fun c => toByte c.toNat

/-- The text of bytes in ASCII. -/
def asciiText (bz : Bytes) : List Char := bz.map fun b => Char.ofNat b.val

/-! ## Printing -/

/-- `Coin.String`. -/
def coinString (coin : Coin) : List Char := asciiText (formatInt coin.amount) ++ coin.denom.toList

/-- `Coins.String`: every coin is followed by a comma, and the last comma is cut off. -/
def coinsString (coins : Coins) : List Char :=
  if coins.length = 0 then []
  else (coins.flatMap fun coin => coinString coin ++ [',']).dropLast

/-! ## Parsing -/

/-- `reDnm`: a letter and 2 to 15 letters or digits. -/
def isDenom : List Char → Bool
  | [] => false
  | first :: rest =>
    isAlpha first && decide (2 ≤ rest.length ∧ rest.length ≤ 15) && rest.all isAlnum

/-- The submatches of `reCoin`, the amount and the denomination.  There is at most one way to match,
see `matchCoin_eq_some_iff`. -/
def matchCoin (coinStr : List Char) : Option (List Char × List Char) :=
  let amountStr := coinStr.takeWhile isDigit
  let denomStr := (coinStr.dropWhile isDigit).dropWhile isBlank
  if amountStr ≠ [] ∧ isDenom denomStr = true then some (amountStr, denomStr) else none

/-- The errors of `ParseCoin` and `ParseCoins`. -/
inductive ParseError
  | invalidCoinExpression (coinStr : List Char)
  | atoi (err : NumError) (amountStr : List Char)
  | parseCoinsInvalid (coins : Coins)
  deriving DecidableEq, Repr

def parseCoin (coinStr : List Char) : Except ParseError Coin :=
  match matchCoin (trimSpace coinStr) with
  | none => .error (.invalidCoinExpression (trimSpace coinStr))
  | some (amountStr, denomStr) =>
    match atoi (asciiBytes amountStr) with
    | .error err => .error (.atoi err amountStr)
    | .ok amount => .ok ⟨String.ofList denomStr, amount⟩

/-- `Coins.Sort`.  The order of coins of one denomination, which `sort.Sort` does not fix, is only
seen in an error. -/
def sort (coins : Coins) : Coins := coins.insertionSort fun coin coin' => coin.denom ≤ coin'.denom

def parseCoins (coinsStr : List Char) : Except ParseError Coins :=
  if trimSpace coinsStr = [] then .ok []
  else do
    let coins ← ((trimSpace coinsStr).splitOn ',').mapM parseCoin
    if isValid (sort coins) = true then return sort coins
    else throw (.parseCoinsInvalid (sort coins))

/-! ## One coin -/

/-- The piece is an amount, blanks and a denomination, and this is the coin it stands for. -/
def Writes (piece : List Char) (coin : Coin) : Prop :=
  ∃ amount blanks denom, trimSpace piece = amount ++ (blanks ++ denom) ∧
    (amount ≠ [] ∧ ∀ c ∈ amount, isDigit c = true) ∧ (∀ c ∈ blanks, isBlank c = true) ∧
    isDenom denom = true ∧ coin = ⟨String.ofList denom, parseDecimal (asciiBytes amount)⟩

variable {c : Char} {denom piece : List Char} {coin : Coin} {coins : Coins}

theorem not_isDigit_of_isBlank (h : isBlank c = true) : ¬ isDigit c = true := by
  simp only [isBlank, isDigit, decide_eq_true_eq] at *
  omega

theorem not_isDigit_of_isAlpha (h : isAlpha c = true) : ¬ isDigit c = true := by
  simp only [isAlpha, isDigit, decide_eq_true_eq] at *
  omega

theorem not_isBlank_of_isAlpha (h : isAlpha c = true) : ¬ isBlank c = true := by
  simp only [isAlpha, isBlank, decide_eq_true_eq] at *
  omega

theorem isAlnum_iff : isAlnum c = true ↔ isDigit c = true ∨ isAlpha c = true := by
  simp [isAlnum]

theorem not_isSpace_of_isAlnum (h : isAlnum c = true) : ¬ isSpace c = true := by
  simp only [isAlnum, isDigit, isAlpha, isSpace, isBlank, Bool.or_eq_true, decide_eq_true_eq,
    List.mem_cons, List.not_mem_nil, or_false] at *
  omega

theorem ne_comma_of_isAlnum (h : isAlnum c = true) : c ≠ ',' := by
  rintro rfl
  revert h
  decide

theorem isDenom_iff : isDenom denom = true ↔
    ∃ first rest, denom = first :: rest ∧ isAlpha first = true ∧
      (2 ≤ rest.length ∧ rest.length ≤ 15) ∧ ∀ c ∈ rest, isAlnum c = true := by
  cases denom with
  | nil => simp [isDenom]
  | cons first rest => simp [isDenom, and_assoc]

theorem isAlnum_of_isDenom (h : isDenom denom = true) : ∀ c ∈ denom, isAlnum c = true := by
  obtain ⟨first, rest, rfl, hfirst, -, hrest⟩ := isDenom_iff.mp h
  intro c hc
  rcases List.mem_cons.mp hc with rfl | hc
  · exact isAlnum_iff.mpr (.inr hfirst)
  · exact hrest c hc

theorem span_append {p : Char → Bool} {part : List Char} (next : List Char)
    (hpart : ∀ c ∈ part, p c = true) (hnext : ∀ c, next.head? = some c → ¬ p c = true) :
    (part ++ next).takeWhile p = part ∧ (part ++ next).dropWhile p = next := by
  rw [List.takeWhile_append_of_pos hpart, List.dropWhile_append_of_pos hpart]
  cases next with
  | nil => simp
  | cons c next => simp [hnext c rfl]

/-- The classes of neighbouring parts are disjoint, so that the longest parts are the only ones. -/
theorem matchCoin_eq_some_iff {coinStr amount : List Char} :
    matchCoin coinStr = some (amount, denom) ↔ ∃ blanks, coinStr = amount ++ (blanks ++ denom) ∧
      (amount ≠ [] ∧ ∀ c ∈ amount, isDigit c = true) ∧ (∀ c ∈ blanks, isBlank c = true) ∧
      isDenom denom = true := by
  constructor
  · intro h
    unfold matchCoin at h
    dsimp only at h
    split_ifs at h with hmatch
    cases h
    refine ⟨(coinStr.dropWhile isDigit).takeWhile isBlank, ?_, ⟨hmatch.1, ?_⟩, ?_, hmatch.2⟩
    · rw [List.takeWhile_append_dropWhile, List.takeWhile_append_dropWhile]
    · exact fun c hc => List.mem_takeWhile_imp hc
    · exact fun c hc => List.mem_takeWhile_imp hc
  · rintro ⟨blanks, rfl, ⟨hne, hamount⟩, hblanks, hdenom⟩
    obtain ⟨first, rest, rfl, hfirst, -⟩ := isDenom_iff.mp hdenom
    have hhead : ∀ c, (blanks ++ first :: rest).head? = some c → ¬ isDigit c = true := by
      intro c hc
      cases blanks with
      | nil =>
        cases hc
        exact not_isDigit_of_isAlpha hfirst
      | cons blank blanks =>
        cases hc
        exact not_isDigit_of_isBlank (hblanks _ List.mem_cons_self)
    have hhead' : ∀ c, (first :: rest).head? = some c → ¬ isBlank c = true := by
      intro c hc
      cases hc
      exact not_isBlank_of_isAlpha hfirst
    obtain ⟨htake, hdrop⟩ := span_append _ hamount hhead
    obtain ⟨-, hdrop'⟩ := span_append _ hblanks hhead'
    unfold matchCoin
    dsimp only
    rw [htake, hdrop, hdrop', if_pos ⟨hne, hdenom⟩]

theorem isNumeral_asciiBytes {amount : List Char} (hne : amount ≠ [])
    (h : ∀ c ∈ amount, isDigit c = true) : IsNumeral (asciiBytes amount) := by
  refine ⟨by simpa [asciiBytes] using hne, fun b hb => ?_⟩
  obtain ⟨c, hc, rfl⟩ := List.mem_map.mp hb
  have hdigit := h c hc
  simp only [isDigit, decide_eq_true_eq] at hdigit
  have hval : (toByte c.toNat).val = c.toNat := Nat.mod_eq_of_lt (by omega)
  unfold IsDigit
  omega

theorem parseCoin_eq_ok_iff :
    parseCoin piece = .ok coin ↔ Writes piece coin ∧ coin.amount < 2 ^ 63 := by
  unfold parseCoin
  constructor
  · intro h
    split at h
    · cases h
    · rename_i amount denom hmatch
      obtain ⟨blanks, htext, hamount, hblanks, hdenom⟩ := matchCoin_eq_some_iff.mp hmatch
      rw [atoi_of_setString (setString_of_isNumeral (isNumeral_asciiBytes hamount.1 hamount.2))] at h
      split_ifs at h with hfits
      cases h
      exact ⟨⟨amount, blanks, denom, htext, hamount, hblanks, hdenom, rfl⟩, hfits.2⟩
  · rintro ⟨⟨amount, blanks, denom, htext, hamount, hblanks, hdenom, rfl⟩, hfits⟩
    rw [matchCoin_eq_some_iff.mpr ⟨blanks, htext, hamount, hblanks, hdenom⟩]
    dsimp only at hfits ⊢
    rw [atoi_of_setString (setString_of_isNumeral (isNumeral_asciiBytes hamount.1 hamount.2)),
      if_pos ⟨by omega, hfits⟩]

theorem Writes.nonneg (h : Writes piece coin) : 0 ≤ coin.amount := by
  obtain ⟨amount, blanks, denom, -, -, -, -, rfl⟩ := h
  exact Int.natCast_nonneg _

/-! ## Lists of coins -/

/-- `ParseCoins` reads the coins its pieces stand for. -/
theorem parseCoins_eq_ok_iff {s : List Char} :
    parseCoins s = .ok coins ↔ trimSpace s = [] ∧ coins = [] ∨ trimSpace s ≠ [] ∧
      ∃ written : Coins, List.Forall₂ Writes ((trimSpace s).splitOn ',') written ∧
        (∀ coin ∈ written, coin.amount < 2 ^ 63) ∧ isValid (sort written) = true ∧
        coins = sort written := by
  unfold parseCoins
  by_cases hempty : trimSpace s = []
  · rw [if_pos hempty]
    constructor
    · intro h
      cases h
      exact .inl ⟨hempty, rfl⟩
    · rintro (⟨-, rfl⟩ | ⟨hne, -⟩)
      · rfl
      · exact absurd hempty hne
  · have hpieces : ∀ {pieces : List (List Char)} {written : Coins},
        pieces.mapM parseCoin = .ok written ↔
          List.Forall₂ Writes pieces written ∧ ∀ coin ∈ written, coin.amount < 2 ^ 63 := by
      intro pieces written
      rw [mapM_eq_ok_iff]
      simp only [parseCoin_eq_ok_iff]
      exact forall₂_and_right
    rw [if_neg hempty]
    simp only [bind_eq_ok, hpieces, hempty, false_and, false_or, ne_eq, not_false_eq_true, true_and]
    constructor
    · rintro ⟨written, ⟨hwritten, hfits⟩, h⟩
      split_ifs at h with hvalid
      exact ⟨written, hwritten, hfits, hvalid, (pure_eq_ok.mp h).symm⟩
    · rintro ⟨written, hwritten, hfits, hvalid, rfl⟩
      exact ⟨written, ⟨hwritten, hfits⟩, by rw [if_pos hvalid]; rfl⟩

theorem validFrom_iff {lowDenom : String} : validFrom lowDenom coins = true ↔
    (∀ coin ∈ coins, lowDenom < coin.denom) ∧ Sorted coins ∧ Nonzero coins := by
  constructor
  · intro h
    obtain ⟨hsorted, habove⟩ := validFrom_sorted h
    refine ⟨habove, hsorted, ?_⟩
    clear hsorted habove
    induction coins generalizing lowDenom with
    | nil => simp [Nonzero]
    | cons coin rest ih =>
      rw [validFrom] at h
      split_ifs at h with hdenom hzero
      exact List.forall_mem_cons.mpr ⟨hzero, ih h⟩
  · rintro ⟨habove, hsorted, hnonzero⟩
    induction coins generalizing lowDenom with
    | nil => rfl
    | cons coin rest ih =>
      obtain ⟨hlow, -⟩ := List.forall_mem_cons.mp habove
      obtain ⟨hcoin, hrest⟩ := List.forall_mem_cons.mp hnonzero
      obtain ⟨hnext, htail⟩ := List.pairwise_cons.mp hsorted
      rw [validFrom, if_neg (not_le.mpr hlow), if_neg hcoin]
      exact ih hnext htail hrest

theorem isValid_cons_iff {rest : Coins} (hrest : rest ≠ []) :
    isValid (coin :: rest) = true ↔ Sorted (coin :: rest) ∧ Nonzero rest := by
  cases rest with
  | nil => exact absurd rfl hrest
  | cons coin' rest =>
    have hsorted : Sorted (coin :: coin' :: rest) ↔
        (∀ other ∈ coin' :: rest, coin.denom < other.denom) ∧ Sorted (coin' :: rest) :=
      List.pairwise_cons
    rw [hsorted, and_assoc]
    exact validFrom_iff

/-- `IsValid` is exact except on sorted lists of two or more coins in which the first amount, and no
other one, is zero. -/
theorem isValid_exact_iff (coins : Coins) :
    (isValid coins = true ↔ Sorted coins ∧ Nonzero coins) ↔
      ¬ ∃ denom rest, coins = ⟨denom, 0⟩ :: rest ∧ rest ≠ [] ∧ Sorted coins ∧ Nonzero rest := by
  rcases coins with - | ⟨coin, - | ⟨coin', rest⟩⟩
  · simp [isValid, Sorted, Nonzero]
  · simp [isValid, Sorted, Nonzero]
  · have hcons : Nonzero (coin :: coin' :: rest) ↔ coin.amount ≠ 0 ∧ Nonzero (coin' :: rest) :=
      List.forall_mem_cons
    rw [isValid_cons_iff (List.cons_ne_nil coin' rest), hcons]
    constructor
    · rintro hexact ⟨denom, _, heq, -, hsorted, hnonzero⟩
      obtain ⟨rfl, rfl⟩ := List.cons.inj heq
      exact (hexact.mp ⟨hsorted, hnonzero⟩).2.1 rfl
    · intro hnot
      constructor
      · rintro ⟨hsorted, hnonzero⟩
        refine ⟨hsorted, fun hzero => hnot ?_, hnonzero⟩
        exact ⟨coin.denom, coin' :: rest, by rw [← hzero], by simp, hsorted, hnonzero⟩
      · rintro ⟨hsorted, -, hnonzero⟩
        exact ⟨hsorted, hnonzero⟩

/-- A list with a zero amount at its front is valid. -/
theorem isValid_zero_first :
    isValid [⟨"atom", 0⟩, ⟨"photon", 5⟩] = true ∧ ¬ Nonzero [⟨"atom", 0⟩, ⟨"photon", 5⟩] :=
  ⟨by decide, by simp [Nonzero]⟩

theorem perm_sort (coins : Coins) : (sort coins).Perm coins := List.perm_insertionSort _ _

theorem sort_eq_self (h : Sorted coins) : sort coins = coins :=
  List.Pairwise.insertionSort_eq (h.imp fun hlt => hlt.le)

theorem sorted_sort (h : (coins.map Coin.denom).Nodup) : Sorted (sort coins) := by
  have hle : (sort coins).Pairwise fun coin coin' => coin.denom ≤ coin'.denom :=
    @List.pairwise_insertionSort _ (fun coin coin' : Coin => coin.denom ≤ coin'.denom) _
      ⟨fun coin coin' => le_total coin.denom coin'.denom⟩ ⟨fun _ _ _ => le_trans⟩ coins
  have hne : (sort coins).Pairwise fun coin coin' => coin.denom ≠ coin'.denom := by
    rw [← List.pairwise_map]
    exact ((perm_sort coins).map Coin.denom).nodup_iff.mpr h
  exact (hle.and hne).imp fun h => lt_of_le_of_ne h.1 h.2

/-! ## Printing and reading back -/

/-- The lists that are printed: sorted, with proper denominations and positive amounts of at most 255
bits. -/
structure Printable (coins : Coins) : Prop where
  sorted : Sorted coins
  isDenom : ∀ coin ∈ coins, isDenom coin.denom.toList = true
  positive : ∀ coin ∈ coins, 0 < coin.amount
  small : ∀ coin ∈ coins, coin.amount < 2 ^ 255

/-- The printed list is read back. -/
def RoundTrips (coins : Coins) : Prop :=
  ∃ coins', parseCoins (coinsString coins) = .ok coins' ∧ isEqual coins coins' = true

theorem asciiBytes_asciiText {bz : Bytes} (h : ∀ b ∈ bz, b.val < 128) :
    asciiBytes (asciiText bz) = bz := by
  unfold asciiBytes asciiText
  rw [List.map_map]
  refine (List.map_congr_left fun b hb => ?_).trans (List.map_id _)
  have hvalid : b.val.isValidChar := .inl ((h b hb).trans (by norm_num))
  apply Fin.ext
  simp only [Function.comp_apply, Char.toNat_ofNat, hvalid, if_true, id_eq]
  exact Nat.mod_eq_of_lt b.isLt

theorem isDigit_asciiText {bz : Bytes} (h : ∀ b ∈ bz, IsDigit b) :
    ∀ c ∈ asciiText bz, isDigit c = true := by
  intro c hc
  obtain ⟨b, hb, rfl⟩ := List.mem_map.mp hc
  have hdigit := h b hb
  have hvalid : b.val.isValidChar := .inl (hdigit.2.trans_lt (by norm_num))
  simp only [isDigit, Char.toNat_ofNat, hvalid, if_true, decide_eq_true_eq]
  exact hdigit

theorem coinString_eq (h : 0 < coin.amount) :
    ∃ n : ℕ, coin.amount = n ∧ coinString coin = asciiText (decimal n) ++ coin.denom.toList := by
  refine ⟨coin.amount.natAbs, by omega, ?_⟩
  unfold coinString formatInt
  rw [if_neg (by omega)]

theorem isAlnum_coinString (hdenom : isDenom coin.denom.toList = true) (hpositive : 0 < coin.amount)
    : ∀ c ∈ coinString coin, isAlnum c = true := by
  obtain ⟨n, -, htext⟩ := coinString_eq hpositive
  rw [htext]
  intro c hc
  rcases List.mem_append.mp hc with hc | hc
  · exact isAlnum_iff.mpr (.inl (isDigit_asciiText (isNumeral_decimal n).2 c hc))
  · exact isAlnum_of_isDenom hdenom c hc

theorem coinString_ne_nil (hpositive : 0 < coin.amount) : coinString coin ≠ [] := by
  obtain ⟨n, -, htext⟩ := coinString_eq hpositive
  rw [htext]
  simp [asciiText, (isNumeral_decimal n).1]

theorem trimSpace_eq_self {s : List Char} (hfirst : ∀ c, s.head? = some c → ¬ isSpace c = true)
    (hlast : ∀ c, s.getLast? = some c → ¬ isSpace c = true) : trimSpace s = s := by
  have hleft : s.dropWhile isSpace = s := by
    cases s with
    | nil => rfl
    | cons c s => simp [hfirst c rfl]
  unfold trimSpace
  rw [hleft, List.rdropWhile_eq_self_iff]
  intro hne
  exact hlast _ (List.getLast?_eq_getLast_of_ne_nil hne)

theorem trimSpace_coinString (hdenom : isDenom coin.denom.toList = true)
    (hpositive : 0 < coin.amount) : trimSpace (coinString coin) = coinString coin := by
  have halnum := isAlnum_coinString hdenom hpositive
  exact trimSpace_eq_self
    (fun c hc => not_isSpace_of_isAlnum (halnum c (List.mem_of_head? hc)))
    (fun c hc => not_isSpace_of_isAlnum (halnum c (List.mem_of_getLast? hc)))

theorem writes_coinString (hdenom : isDenom coin.denom.toList = true) (hpositive : 0 < coin.amount)
    : Writes (coinString coin) coin := by
  obtain ⟨n, hamount, htext⟩ := coinString_eq hpositive
  obtain ⟨hne, hdigits⟩ := isNumeral_decimal n
  refine ⟨asciiText (decimal n), [], coin.denom.toList, ?_, ⟨?_, isDigit_asciiText hdigits⟩,
    by simp, hdenom, ?_⟩
  · rw [trimSpace_coinString hdenom hpositive, htext, List.nil_append]
  · simpa [asciiText] using hne
  · have hbytes : asciiBytes (asciiText (decimal n)) = decimal n := by
      refine asciiBytes_asciiText fun b hb => ?_
      have := digit_lt_of_mem_decimal hb
      omega
    rw [hbytes, parseDecimal_decimal, String.ofList_toList, ← hamount]

theorem coinsString_eq (coins : Coins) :
    coinsString coins = [','].intercalate (coins.map coinString) := by
  unfold coinsString
  induction coins with
  | nil => rfl
  | cons coin coins ih =>
    cases coins with
    | nil => simp [List.intercalate]
    | cons coin' coins =>
      rw [if_neg (by simp)] at ih ⊢
      rw [List.flatMap_cons, List.dropLast_append_of_ne_nil (by simp), ih]
      simp [List.intercalate, List.append_assoc]

section Printable

variable {coins : Coins}

theorem Printable.tail {coin : Coin} (h : Printable (coin :: coins)) : Printable coins where
  sorted := (List.pairwise_cons.mp h.sorted).2
  isDenom := (List.forall_mem_cons.mp h.isDenom).2
  positive := (List.forall_mem_cons.mp h.positive).2
  small := (List.forall_mem_cons.mp h.small).2

theorem Printable.isAlnum (h : Printable coins) {coin : Coin} (hcoin : coin ∈ coins) :
    ∀ c ∈ coinString coin, isAlnum c = true :=
  isAlnum_coinString (h.isDenom coin hcoin) (h.positive coin hcoin)

/-- At both ends of the text is a letter or digit, between them only commas are added. -/
theorem Printable.trimSpace_coinsString (h : Printable coins) :
    trimSpace (coinsString coins) = coinsString coins := by
  rw [coinsString_eq]
  apply trimSpace_eq_self
  · intro c hc
    cases coins with
    | nil => simp [List.intercalate] at hc
    | cons coin rest =>
      have hne := coinString_ne_nil (h.positive coin List.mem_cons_self)
      have hhead : ([','].intercalate ((coin :: rest).map coinString)).head? =
          (coinString coin).head? := by
        cases rest with
        | nil => simp [List.intercalate]
        | cons coin' rest =>
          rw [List.map_cons, List.map_cons, List.intercalate_cons_cons, List.append_assoc,
            List.head?_append_of_ne_nil _ hne]
      rw [hhead] at hc
      exact not_isSpace_of_isAlnum (h.isAlnum List.mem_cons_self c (List.mem_of_head? hc))
  · intro c hc
    induction coins with
    | nil => simp [List.intercalate] at hc
    | cons coin rest ih =>
      cases rest with
      | nil =>
        have hlast : (coinString coin).getLast? = some c := by
          simpa [List.intercalate] using hc
        exact not_isSpace_of_isAlnum
          (h.isAlnum List.mem_cons_self c (List.mem_of_getLast? hlast))
      | cons coin' rest =>
        have hne : [','].intercalate ((coin' :: rest).map coinString) ≠ [] := by
          have hfirst := coinString_ne_nil (h.tail.positive coin' List.mem_cons_self)
          cases rest with
          | nil => simpa [List.intercalate] using hfirst
          | cons coin'' rest => simp [List.intercalate_cons_cons, hfirst]
        rw [List.map_cons, List.map_cons, List.intercalate_cons_cons, ← List.map_cons,
          List.getLast?_append_of_ne_nil _ hne] at hc
        exact ih h.tail hc

theorem Printable.splitOn_coinsString (h : Printable coins) (hne : coins ≠ []) :
    (coinsString coins).splitOn ',' = coins.map coinString := by
  rw [coinsString_eq]
  refine List.splitOn_intercalate ',' ?_ (by simpa using hne)
  intro piece hpiece hcomma
  obtain ⟨coin, hcoin, rfl⟩ := List.mem_map.mp hpiece
  exact ne_comma_of_isAlnum (h.isAlnum hcoin _ hcomma) rfl

theorem Printable.isValid (h : Printable coins) : isValid coins = true := by
  have hnonzero : Nonzero coins := fun coin hcoin => (h.positive coin hcoin).ne'
  match coins with
  | [] => rfl
  | [coin] => simpa [Coins.isValid] using hnonzero coin List.mem_cons_self
  | coin :: coin' :: rest =>
    exact (isValid_cons_iff (by simp)).mpr ⟨h.sorted, (List.forall_mem_cons.mp hnonzero).2⟩

end Printable

theorem Writes.unique {coin' : Coin} (h : Writes piece coin) (h' : Writes piece coin') : coin =
    coin' := by
  obtain ⟨amount, blanks, denom, htext, hamount, hblanks, hdenom, rfl⟩ := h
  obtain ⟨amount', blanks', denom', htext', hamount', hblanks', hdenom', rfl⟩ := h'
  have hmatch := matchCoin_eq_some_iff.mpr ⟨blanks, htext, hamount, hblanks, hdenom⟩
  have hmatch' := matchCoin_eq_some_iff.mpr ⟨blanks', htext', hamount', hblanks', hdenom'⟩
  cases hmatch.symm.trans hmatch'
  rfl

/-- What is printed is read back exactly if all amounts are `int64`s. -/
theorem roundTrips_iff (h : Printable coins) :
    RoundTrips coins ↔ ∀ coin ∈ coins, coin.amount < 2 ^ 63 := by
  by_cases hne : coins = []
  · subst hne
    simp only [List.not_mem_nil, false_imp_iff, implies_true, iff_true]
    exact ⟨[], rfl, rfl⟩
  have hwrites : List.Forall₂ Writes (coins.map coinString) coins := by
    rw [List.forall₂_map_left_iff]
    exact List.forall₂_same.mpr fun coin hcoin =>
      writes_coinString (h.isDenom coin hcoin) (h.positive coin hcoin)
  have htext : coinsString coins ≠ [] := by
    intro hempty
    have hsplit := h.splitOn_coinsString hne
    rw [hempty] at hsplit
    cases coins with
    | nil => exact hne rfl
    | cons coin rest =>
      rw [List.splitOn_nil, List.map_cons] at hsplit
      exact coinString_ne_nil (h.positive coin List.mem_cons_self) (List.cons.inj hsplit).1.symm
  unfold RoundTrips
  simp only [parseCoins_eq_ok_iff, h.trimSpace_coinsString, h.splitOn_coinsString hne]
  constructor
  · rintro ⟨coins', hread, -⟩
    rcases hread with ⟨hempty, -⟩ | ⟨-, written, hwritten, hfits, -⟩
    · exact absurd hempty htext
    · -- the pieces stand for the coins that were printed and no others
      have heq : written = coins :=
        List.right_unique_forall₂' (fun _ _ _ hw hw' => hw.unique hw') hwritten hwrites
      rwa [heq] at hfits
  · intro hfits
    refine ⟨coins, .inr ⟨htext, coins, hwrites, hfits, ?_, (sort_eq_self h.sorted).symm⟩,
      isEqual_iff.mpr rfl⟩
    rw [sort_eq_self h.sorted]
    exact h.isValid

/-! ## What is read -/

/-- Whatever is read from the text is sorted and positive. -/
def ReadsCanonical (s : List Char) : Prop := ∀ coins, parseCoins s = .ok coins → Canonical coins

/-- The text is a list of two or more coins that `Atoi` can read, with different denominations, of
which exactly the one with the least denomination has amount zero. -/
def HiddenZero (s : List Char) : Prop :=
  ∃ written : Coins, List.Forall₂ Writes ((trimSpace s).splitOn ',') written ∧
    (∀ coin ∈ written, coin.amount < 2 ^ 63) ∧ (written.map Coin.denom).Nodup ∧
    2 ≤ written.length ∧ ∃ coin ∈ written, coin.amount = 0 ∧
      ∀ other ∈ written, other ≠ coin → coin.denom < other.denom ∧ other.amount ≠ 0

theorem readsCanonical_iff (s : List Char) : ReadsCanonical s ↔ ¬ HiddenZero s := by
  constructor
  · rintro h ⟨written, hwritten, hfits, hnodup, hlength, coin, hcoin, hzero, hothers⟩
    have hperm := perm_sort written
    have hsorted := sorted_sort hnodup
    have hmem : coin ∈ sort written := hperm.mem_iff.mpr hcoin
    -- sorting puts the zero first, where it is not seen
    have hvalid : isValid (sort written) = true := by
      cases hsort : sort written with
      | nil => simp [hsort] at hmem
      | cons first rest =>
        have hrest : rest ≠ [] := by
          rintro rfl
          have := hperm.length_eq
          simp [hsort] at this
          omega
        rw [hsort] at hsorted hmem
        obtain ⟨habove, -⟩ := List.pairwise_cons.mp hsorted
        have hfirst : coin = first := by
          rcases List.mem_cons.mp hmem with heq | hlater
          · exact heq
          · by_contra hne
            have hfirstmem : first ∈ written :=
              hperm.mem_iff.mp (hsort ▸ List.mem_cons_self)
            have hlt := (hothers first hfirstmem (Ne.symm hne)).1
            exact lt_asymm hlt (habove coin hlater)
        refine (isValid_cons_iff hrest).mpr ⟨hsorted, fun other hother => ?_⟩
        have hne : other ≠ coin := by
          rintro rfl
          rw [← hfirst] at habove
          exact lt_irrefl _ (habove other hother)
        exact (hothers other (hperm.mem_iff.mp (hsort ▸ List.mem_cons_of_mem _ hother)) hne).2
    have htext : trimSpace s ≠ [] := by
      intro hempty
      have hone := hwritten.length_eq
      rw [hempty, List.splitOn_nil, List.length_singleton] at hone
      omega
    have hread := h (sort written)
      (parseCoins_eq_ok_iff.mpr (.inr ⟨htext, written, hwritten, hfits, hvalid, rfl⟩))
    exact absurd hzero (hread.positive coin hmem).ne'
  · intro h coins hcoins
    rcases parseCoins_eq_ok_iff.mp hcoins with ⟨-, rfl⟩ | ⟨-, written, hwritten, hfits, hvalid, rfl⟩
    · exact canonical_nil
    have hperm := perm_sort written
    have hsorted := isValid_sorted hvalid
    have hnonneg : ∀ coin ∈ written, 0 ≤ coin.amount :=
      (forall₂_and_right.mp (hwritten.imp fun _ _ hpiece => ⟨hpiece, hpiece.nonneg⟩)).2
    refine ⟨hsorted, fun coin hcoin => ?_⟩
    refine (hnonneg coin (hperm.mem_iff.mp hcoin)).lt_of_ne' fun hzero => h ?_
    have hnodup : (written.map Coin.denom).Nodup := by
      rw [← (hperm.map Coin.denom).nodup_iff, List.Nodup, List.pairwise_map]
      exact hsorted.imp fun hlt => hlt.ne
    cases hsort : sort written with
    | nil => simp [hsort] at hcoin
    | cons first rest =>
      rw [hsort] at hvalid hcoin hsorted
      have hrest : rest ≠ [] := by
        rintro rfl
        rw [List.mem_singleton.mp hcoin] at hzero
        simp [isValid, hzero] at hvalid
      obtain ⟨-, hnonzero⟩ := (isValid_cons_iff hrest).mp hvalid
      have hfirst : coin = first := by
        rcases List.mem_cons.mp hcoin with heq | hlater
        · exact heq
        · exact absurd hzero (hnonzero coin hlater)
      subst hfirst
      refine ⟨written, hwritten, hfits, hnodup, ?_, coin,
        hperm.mem_iff.mp (hsort ▸ List.mem_cons_self), hzero, fun other hother hne => ?_⟩
      · rw [← hperm.length_eq, hsort, List.length_cons]
        have := List.length_pos_of_ne_nil hrest
        omega
      · have hlater : other ∈ rest := by
          have hmem := hperm.mem_iff.mpr hother
          rw [hsort] at hmem
          exact (List.mem_cons.mp hmem).resolve_left hne
        exact ⟨(List.pairwise_cons.mp hsorted).1 other hlater, hnonzero other hlater⟩

/-- When printed coins are read back, and when what is read is sorted and positive. -/
theorem parseCoins_correct_iff (coins : Coins) (s : List Char) :
    (Printable coins → (RoundTrips coins ↔ ∀ coin ∈ coins, coin.amount < 2 ^ 63)) ∧
      (ReadsCanonical s ↔ ¬ HiddenZero s) :=
  ⟨roundTrips_iff, readsCanonical_iff s⟩

/-- `9223372036854775808foo` is what `String` prints, but `Atoi` refuses it; and `0bar,1foo` is
accepted. -/
theorem parseCoins_incorrect :
    (Printable [⟨"foo", 2 ^ 63⟩] ∧ ¬ RoundTrips [⟨"foo", 2 ^ 63⟩]) ∧
      ¬ ReadsCanonical ['0', 'b', 'a', 'r', ',', '1', 'f', 'o', 'o'] := by
  have hprintable : Printable [⟨"foo", 2 ^ 63⟩] := by
    constructor <;> decide
  refine ⟨⟨hprintable, fun h => ?_⟩, fun h => ?_⟩
  · have hsmall := (roundTrips_iff hprintable).mp h _ List.mem_cons_self
    exact lt_irrefl _ hsmall
  · have hread : parseCoins ['0', 'b', 'a', 'r', ',', '1', 'f', 'o', 'o'] =
        .ok [⟨"bar", 0⟩, ⟨"foo", 1⟩] := by decide +kernel
    exact lt_irrefl _ ((h _ hread).positive _ List.mem_cons_self)

end Tepleton.Coins
