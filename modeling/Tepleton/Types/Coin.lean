import Tepleton.Types.Rational

/-!
# `types/coin.go` and the integer arithmetic under it

A `Coins` value is a list of coins; `plus` merges two lists by denomination, which is only
meaningful as addition on sorted lists.  `denomTotal` adds up everything a list holds of one
denomination, sorted or not, and `plus` respects it on all lists.
-/

namespace Tepleton

open Lib

/-- `Int.Add`, refusing a result of more than 255 bits. -/
def addInt (i i2 : ℤ) : Outcome ℤ :=
  if 2 ^ 255 ≤ (i + i2).natAbs then .error (.panic .intOverflow) else .ok (i + i2)

/-- `Int.Sub`. -/
def subInt (i i2 : ℤ) : Outcome ℤ :=
  if 2 ^ 255 ≤ (i - i2).natAbs then .error (.panic .intOverflow) else .ok (i - i2)

/-- `Int.Int64`, panicking outside the range of `int64`. -/
def toInt64 (i : ℤ) : Outcome ℤ :=
  if -2 ^ 63 ≤ i ∧ i < 2 ^ 63 then .ok i else .error (.panic .int64OutOfBound)

variable {i j : ℤ}

theorem addInt_eq_ok {i2 : ℤ} (h : addInt i i2 = .ok j) : j = i + i2 := by
  unfold addInt at h
  split at h
  · cases h
  · cases h; rfl

theorem subInt_eq_ok {i2 : ℤ} (h : subInt i i2 = .ok j) : j = i - i2 := by
  unfold subInt at h
  split at h
  · cases h
  · cases h; rfl

theorem toInt64_eq_ok (h : toInt64 i = .ok j) : j = i ∧ -2 ^ 63 ≤ i ∧ i < 2 ^ 63 := by
  unfold toInt64 at h
  split at h
  · cases h
    exact ⟨rfl, ‹_›⟩
  · cases h

/-- `Coin`: some amount of one currency. -/
structure Coin where
  denom : String
  amount : ℤ
  deriving DecidableEq, Repr

/-- An encoding of coins by their fields. -/
def Coin.wire : Wire Coin :=
  (Wire.string.pair Wire.int).retract (fun coin => (coin.denom, coin.amount))
    (fun fields => ⟨fields.1, fields.2⟩) fun _ => rfl

abbrev Coins := List Coin

namespace Coins

/-- The merge of `coinA :: restA` with a list, given how `restA` merges: `coinA` is compared with
the other list's coins from the front. -/
def plusFrom (coinA : Coin) (restA : Coins) (plusRest : Coins → Outcome Coins) :
    Coins → Outcome Coins
  | [] => .ok (coinA :: restA)
  | coinB :: restB =>
    if coinA.denom < coinB.denom then do
      let sum ← plusRest (coinB :: restB)
      return coinA :: sum
    else if coinA.denom = coinB.denom then do
      let total ← addInt coinA.amount coinB.amount
      let sum ← plusRest restB
      return if total = 0 then sum else ⟨coinA.denom, total⟩ :: sum
    else do
      let sum ← plusFrom coinA restA plusRest restB
      return coinB :: sum

def plus : Coins → Coins → Outcome Coins
  | [], coinsB => .ok coinsB
  | coinA :: restA, coinsB => plusFrom coinA restA (plus restA) coinsB

def negative (coins : Coins) : Coins := coins.map fun coin => ⟨coin.denom, -coin.amount⟩

def minus (coins coinsB : Coins) : Outcome Coins := plus coins (negative coinsB)

def isNotNegative (coins : Coins) : Bool := coins.all fun coin => decide (0 ≤ coin.amount)

/-- Everything the list holds of one denomination. -/
def denomTotal (denom : String) (coins : Coins) : ℤ :=
  (coins.map fun coin => if coin.denom = denom then coin.amount else 0).sum

@[simp] theorem denomTotal_nil (denom : String) : denomTotal denom [] = 0 := rfl

@[simp] theorem denomTotal_cons (denom : String) (coin : Coin) (coins : Coins) :
    denomTotal denom (coin :: coins) =
      (if coin.denom = denom then coin.amount else 0) + denomTotal denom coins := by
  simp [denomTotal]

theorem denomTotal_negative (denom : String) (coins : Coins) :
    denomTotal denom (negative coins) = -denomTotal denom coins := by
  induction coins with
  | nil => rfl
  | cons coin coins ih =>
    rw [negative] at ih
    simp only [negative, List.map_cons, denomTotal_cons, ih]
    split_ifs <;> ring

/-- What the loop of `Plus` does: one list is used up, or the coin with the smaller denomination goes
out, or two coins of one denomination are added. -/
inductive Merges : Coins → Coins → Coins → Prop
  | nilLeft (coinsB : Coins) : Merges [] coinsB coinsB
  | nilRight (coins : Coins) : Merges coins [] coins
  | less {coinA coinB : Coin} {restA restB sum : Coins} :
      coinA.denom < coinB.denom → Merges restA (coinB :: restB) sum →
      Merges (coinA :: restA) (coinB :: restB) (coinA :: sum)
  | cancel {coinA coinB : Coin} {restA restB sum : Coins} :
      coinA.denom = coinB.denom → coinA.amount + coinB.amount = 0 → Merges restA restB sum →
      Merges (coinA :: restA) (coinB :: restB) sum
  | add {coinA coinB : Coin} {restA restB sum : Coins} :
      coinA.denom = coinB.denom → coinA.amount + coinB.amount ≠ 0 → Merges restA restB sum →
      Merges (coinA :: restA) (coinB :: restB) (⟨coinA.denom, coinA.amount + coinB.amount⟩ :: sum)
  | greater {coinA coinB : Coin} {restA restB sum : Coins} :
      coinB.denom < coinA.denom → Merges (coinA :: restA) restB sum →
      Merges (coinA :: restA) (coinB :: restB) (coinB :: sum)

variable {coins coinsB sum : Coins}

theorem merges_of_plus (h : plus coins coinsB = .ok sum) : Merges coins coinsB sum := by
  induction coins generalizing coinsB sum with
  | nil =>
    cases h
    exact .nilLeft coinsB
  | cons coinA restA ih =>
    rw [plus] at h
    -- `coinA` waits while the smaller denominations of the other list go out
    induction coinsB generalizing sum with
    | nil =>
      cases h
      exact .nilRight (coinA :: restA)
    | cons coinB restB ihB =>
      rw [plusFrom] at h
      split_ifs at h with hlt heq
      all_goals simp only [bind_eq_ok, pure_eq_ok] at h
      · obtain ⟨merged, hmerged, rfl⟩ := h
        exact .less hlt (ih hmerged)
      · obtain ⟨total, htotal, merged, hmerged, rfl⟩ := h
        obtain rfl := addInt_eq_ok htotal
        split_ifs with hzero
        · exact .cancel heq hzero (ih hmerged)
        · exact .add heq hzero (ih hmerged)
      · obtain ⟨merged, hmerged, rfl⟩ := h
        exact .greater (lt_of_le_of_ne (not_lt.mp hlt) (Ne.symm heq)) (ihB hmerged)

theorem denomTotal_plus {denom : String} (h : plus coins coinsB = .ok sum) :
    denomTotal denom sum = denomTotal denom coins + denomTotal denom coinsB := by
  replace h := merges_of_plus h
  induction h with
  | nilLeft coinsB => simp
  | nilRight coins => simp
  | less _ _ ih =>
    simp only [denomTotal_cons] at ih ⊢
    rw [ih, add_assoc]
  | cancel heq _ _ ih =>
    simp only [denomTotal_cons, ← heq, ih]
    split_ifs <;> omega
  | add heq _ _ ih =>
    simp only [denomTotal_cons, ← heq, ih]
    split_ifs <;> omega
  | greater _ _ ih =>
    simp only [denomTotal_cons] at ih ⊢
    rw [ih, add_left_comm]

end Coins

end Tepleton
