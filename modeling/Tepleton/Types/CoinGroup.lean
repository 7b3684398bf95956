import Tepleton.Types.Int
import Tepleton.Types.SortedCoins

/-!
# Coins as an ordered group

On lists that are sorted and have no zero amounts, `AmountOf` finds by bisection what the list holds
of a denomination, and a list is determined by what it holds.  So the laws of `Plus`, `Minus`,
`IsEqual` and `IsGTE` are those of integers, denomination by denomination, as long as no amount
overflows.
-/

namespace Tepleton.Coins

open Lib

def amountOf (coins : Coins) (denom : String) : ℤ :=
  match h : coins with
  | [] => 0
  | [coin] => if coin.denom = denom then coin.amount else 0
  | first :: second :: rest =>
    let midIdx := coins.length / 2
    have hmid : midIdx < coins.length := Nat.div_lt_self (by simp [h]) (by norm_num)
    let coin := coins.get ⟨midIdx, hmid⟩
    if denom < coin.denom then amountOf (coins.take midIdx) denom
    else if denom = coin.denom then coin.amount
    else amountOf (coins.drop (midIdx + 1)) denom
  termination_by coins.length
  decreasing_by
    · simp only [h, List.length_take, List.length_cons]
      omega
    · simp only [h, List.length_drop, List.length_cons]
      omega

/-- Sorted, without zero amounts. -/
structure Reduced (coins : Coins) : Prop where
  sorted : Sorted coins
  nonzero : Nonzero coins

instance (coins : Coins) : Decidable (Reduced coins) :=
  decidable_of_iff (Sorted coins ∧ ∀ coin ∈ coins, coin.amount ≠ 0)
    ⟨fun h => ⟨h.1, h.2⟩, fun h => ⟨h.sorted, h.nonzero⟩⟩

/-! ## What a list holds -/

theorem denomTotal_append (denom : String) (coins coinsB : Coins) :
    denomTotal denom (coins ++ coinsB) = denomTotal denom coins + denomTotal denom coinsB := by
  simp [denomTotal]

variable {coins coinsB : Coins}

theorem amountOf_bisect (hlong : 2 ≤ coins.length) (hmid : coins.length / 2 < coins.length)
    (denom : String) :
    amountOf coins denom =
      if denom < (coins.get ⟨coins.length / 2, hmid⟩).denom then
        amountOf (coins.take (coins.length / 2)) denom
      else if denom = (coins.get ⟨coins.length / 2, hmid⟩).denom then
        (coins.get ⟨coins.length / 2, hmid⟩).amount
      else amountOf (coins.drop (coins.length / 2 + 1)) denom := by
  match coins with
  | [] => simp at hlong
  | [coin] => simp at hlong
  | first :: second :: rest => rw [amountOf]

/-- Bisection finds the total, since on each side of a coin are only smaller or only greater
denominations. -/
theorem Sorted.amountOf_eq (h : Sorted coins) (denom : String) :
    amountOf coins denom = denomTotal denom coins := by
  induction hlength : coins.length using Nat.strong_induction_on generalizing coins with
  | _ n ih =>
    by_cases hlong : 2 ≤ coins.length
    · have hmid : coins.length / 2 < coins.length := by omega
      -- the list is what is before the middle, the coin there and what is after it
      have hsplit : coins = coins.take (coins.length / 2) ++
          coins.get ⟨coins.length / 2, hmid⟩ :: coins.drop (coins.length / 2 + 1) := by
        rw [List.get_eq_getElem, List.getElem_cons_drop, List.take_append_drop]
      have hparts := h
      rw [hsplit, Sorted, List.pairwise_append, List.pairwise_cons] at hparts
      obtain ⟨hleft, ⟨habove, hright⟩, hacross⟩ := hparts
      have htotal := congrArg (denomTotal denom) hsplit
      rw [denomTotal_append, denomTotal_cons] at htotal
      rw [amountOf_bisect hlong hmid]
      split_ifs with hlt heq
      · have hzero : denomTotal denom (coins.drop (coins.length / 2 + 1)) = 0 :=
          denomTotal_eq_zero fun coin hcoin => (hlt.trans (habove coin hcoin)).ne'
        rw [htotal, if_neg hlt.ne', hzero, add_zero, add_zero]
        exact ih _ (by rw [List.length_take]; omega) hleft rfl
      · have hzero : denomTotal denom (coins.take (coins.length / 2)) = 0 :=
          denomTotal_eq_zero fun coin hcoin =>
            heq ▸ (hacross coin hcoin _ List.mem_cons_self).ne
        have hzero' : denomTotal denom (coins.drop (coins.length / 2 + 1)) = 0 :=
          denomTotal_eq_zero fun coin hcoin => heq ▸ (habove coin hcoin).ne'
        rw [htotal, if_pos heq.symm, hzero, hzero', add_zero, zero_add]
      · have hgt := lt_of_le_of_ne (not_lt.mp hlt) (Ne.symm heq)
        have hzero : denomTotal denom (coins.take (coins.length / 2)) = 0 :=
          denomTotal_eq_zero fun coin hcoin =>
            ((hacross coin hcoin _ List.mem_cons_self).trans hgt).ne
        rw [htotal, if_neg (Ne.symm heq), hzero, zero_add, zero_add]
        exact ih _ (by rw [List.length_drop]; omega) hright rfl
    · rcases coins with - | ⟨coin, - | ⟨second, rest⟩⟩
      · simp [amountOf]
      · simp [amountOf]
      · simp at hlong

theorem Reduced.mem_iff (h : Reduced coins) {coin : Coin} :
    coin ∈ coins ↔ coin.amount ≠ 0 ∧ denomTotal coin.denom coins = coin.amount := by
  constructor
  · intro hcoin
    exact ⟨h.nonzero coin hcoin, h.sorted.denomTotal_eq hcoin⟩
  · rintro ⟨hne, htotal⟩
    by_contra hmem
    have habsent : ∀ coin' ∈ coins, coin'.denom ≠ coin.denom := by
      intro coin' hcoin' hdenom
      have hamount := h.sorted.denomTotal_eq hcoin'
      rw [hdenom, htotal] at hamount
      apply hmem
      rwa [show coin = coin' from by cases coin; cases coin'; simp_all]
    exact hne (htotal.symm.trans (denomTotal_eq_zero habsent))

theorem Reduced.ext (h : Reduced coins) (hB : Reduced coinsB)
    (heq : ∀ denom, denomTotal denom coins = denomTotal denom coinsB) : coins = coinsB := by
  have hnodup : ∀ {coins : Coins}, Sorted coins → coins.Nodup := by
    intro coins hsorted
    refine hsorted.imp fun hlt hcoin => ?_
    rw [hcoin] at hlt
    exact lt_irrefl _ hlt
  have hperm : coins.Perm coinsB := by
    refine (List.perm_ext_iff_of_nodup (hnodup h.sorted) (hnodup hB.sorted)).mpr fun coin => ?_
    rw [h.mem_iff, hB.mem_iff, heq]
  exact hperm.eq_of_pairwise (fun a b _ _ hlt hgt => absurd (hlt.trans hgt) (lt_irrefl _))
    h.sorted hB.sorted

/-! ## Merging -/

theorem plus_nil_right (coins : Coins) : plus coins [] = .ok coins := by
  cases coins <;> rfl

/-- Both lists are treated alike. -/
theorem plus_comm (coins coinsB : Coins) : plus coins coinsB = plus coinsB coins := by
  induction hlength : coins.length + coinsB.length using Nat.strong_induction_on
    generalizing coins coinsB with
  | _ n ih =>
    match coins, coinsB with
    | [], coinsB => rw [plus_nil_right, plus]
    | coins, [] => rw [plus_nil_right, plus]
    | coinA :: restA, coinB :: restB =>
      simp only [List.length_cons] at hlength
      simp only [plus, plusFrom]
      rcases lt_trichotomy coinA.denom coinB.denom with hlt | heq | hgt
      · have hrest := ih _ (by simp only [List.length_cons]; omega) restA (coinB :: restB) rfl
        rw [if_pos hlt, if_neg hlt.asymm, if_neg hlt.ne', hrest]
        rfl
      · have hrest := ih _ (by omega) restA restB rfl
        have hadd : addInt coinA.amount coinB.amount = addInt coinB.amount coinA.amount := by
          unfold addInt
          rw [add_comm]
        rw [if_neg heq.not_lt, if_pos heq, if_neg heq.symm.not_lt, if_pos heq.symm, hrest, hadd,
          heq]
      · have hrest := ih _ (by simp only [List.length_cons]; omega) (coinA :: restA) restB rfl
        rw [if_neg hgt.asymm, if_neg hgt.ne', if_pos hgt, ← hrest]
        rfl

/-- Merging only adds amounts of one denomination, so that it cannot fail if none of these sums
overflows. -/
theorem exists_plus (h : ∀ coin ∈ coins, ∀ coin' ∈ coinsB, coin.denom = coin'.denom →
      IntRange (coin.amount + coin'.amount)) : ∃ sum, plus coins coinsB = .ok sum := by
  induction coins generalizing coinsB with
  | nil => exact ⟨coinsB, rfl⟩
  | cons coinA restA ih =>
    induction coinsB with
    | nil => exact ⟨coinA :: restA, rfl⟩
    | cons coinB restB ihB =>
      have hA : ∀ {rest : Coins}, rest ⊆ coinB :: restB → ∀ coin ∈ restA, ∀ coin' ∈ rest,
          coin.denom = coin'.denom → IntRange (coin.amount + coin'.amount) :=
        fun hsub coin hcoin coin' hcoin' =>
          h coin (List.mem_cons_of_mem _ hcoin) coin' (hsub hcoin')
      simp only [plus, plusFrom]
      split_ifs with hlt heq
      · obtain ⟨sum, hsum⟩ := ih (hA (List.Subset.refl _))
        rw [hsum]
        exact ⟨_, rfl⟩
      · have hrange := h coinA List.mem_cons_self coinB List.mem_cons_self heq
        obtain ⟨sum, hsum⟩ := ih (hA (List.subset_cons_self _ _))
        rw [addInt_eq_boundInt, (boundInt_exact _).1 hrange, hsum]
        exact ⟨_, rfl⟩
      · obtain ⟨sum, hsum⟩ := ihB fun coin hcoin coin' hcoin' =>
          h coin hcoin coin' (List.mem_cons_of_mem _ hcoin')
        rw [plus] at hsum
        rw [hsum]
        exact ⟨_, rfl⟩

theorem Reduced.plus {sum : Coins} (h : Reduced coins) (hB : Reduced coinsB)
    (hsum : coins.plus coinsB = .ok sum) : Reduced sum :=
  ⟨sorted_plus hsum h.sorted hB.sorted, nonzero_plus hsum h.nonzero hB.nonzero⟩

theorem Reduced.negative (h : Reduced coins) : Reduced (negative coins) :=
  ⟨h.sorted.negative, h.nonzero.negative⟩

theorem reduced_nil : Reduced [] := ⟨List.Pairwise.nil, by simp [Nonzero]⟩

theorem denomTotal_minus {diff : Coins} (h : coins.minus coinsB = .ok diff) (denom : String) :
    denomTotal denom diff = denomTotal denom coins - denomTotal denom coinsB := by
  rw [denomTotal_plus h, denomTotal_negative, sub_eq_add_neg]

theorem Reduced.exists_plus (h : Reduced coins) (hB : Reduced coinsB)
    (hrange : ∀ denom, IntRange (denomTotal denom coins + denomTotal denom coinsB)) :
    ∃ sum, coins.plus coinsB = .ok sum := by
  refine Coins.exists_plus fun coin hcoin coin' hcoin' hdenom => ?_
  have hsum := hrange coin.denom
  rwa [h.sorted.denomTotal_eq hcoin, hdenom, hB.sorted.denomTotal_eq hcoin'] at hsum

theorem Reduced.exists_minus (h : Reduced coins) (hB : Reduced coinsB)
    (hrange : ∀ denom, IntRange (denomTotal denom coins - denomTotal denom coinsB)) :
    ∃ diff, coins.minus coinsB = .ok diff := by
  refine h.exists_plus hB.negative fun denom => ?_
  rw [denomTotal_negative, ← sub_eq_add_neg]
  exact hrange denom

theorem Reduced.minus_self (h : Reduced coins) : coins.minus coins = .ok [] := by
  obtain ⟨diff, hdiff⟩ := h.exists_minus h fun denom => by
    rw [sub_self]
    decide
  have hempty : diff = [] := by
    refine (h.plus h.negative hdiff).ext reduced_nil fun denom => ?_
    rw [denomTotal_minus hdiff, sub_self, denomTotal_nil]
  rw [hdiff, hempty]

theorem Sorted.isNotNegative_iff (h : Sorted coins) :
    isNotNegative coins = true ↔ ∀ denom, 0 ≤ denomTotal denom coins := by
  rw [Coins.isNotNegative_iff]
  constructor
  · exact fun hnonneg denom => denomTotal_nonneg hnonneg denom
  · intro hnonneg coin hcoin
    rw [← h.denomTotal_eq hcoin]
    exact hnonneg coin.denom

theorem Reduced.isGTE_iff {greater : Bool} (h : Reduced coins) (hB : Reduced coinsB)
    (hresult : coins.isGTE coinsB = .ok greater) :
    greater = true ↔ ∀ denom, denomTotal denom coinsB ≤ denomTotal denom coins := by
  obtain ⟨diff, hdiff, hgreater⟩ := bind_eq_ok.mp hresult
  rw [pure_eq_ok] at hgreater
  have hsorted := (h.plus hB.negative hdiff).sorted
  -- the shortcut for an empty difference changes nothing
  have hempty : diff.isEmpty = true → isNotNegative diff = true := by
    intro hnil
    rw [List.isEmpty_iff.mp hnil]
    rfl
  rw [← hgreater, Bool.or_eq_true, or_iff_right_of_imp hempty, hsorted.isNotNegative_iff]
  refine forall_congr' fun denom => ?_
  rw [denomTotal_minus hdiff, sub_nonneg]

/-! ## The laws -/

/-- The laws of an ordered group for three lists.  A call that overflows panics; where two results are
compared both calls have returned. -/
structure GroupLaws (A B C : Coins) : Prop where
  plus_reduced : ∀ sum, A.plus B = .ok sum → Reduced sum
  amountOf_plus : ∀ sum, A.plus B = .ok sum → ∀ denom,
    sum.amountOf denom = A.amountOf denom + B.amountOf denom
  amountOf_minus : ∀ diff, A.minus B = .ok diff → ∀ denom,
    diff.amountOf denom = A.amountOf denom - B.amountOf denom
  commutes : ∀ sum, A.plus B = .ok sum → ∃ sum', B.plus A = .ok sum' ∧ isEqual sum sum' = true
  associates : ∀ sumAB left sumBC right, A.plus B = .ok sumAB → sumAB.plus C = .ok left →
    B.plus C = .ok sumBC → A.plus sumBC = .ok right → isEqual left right = true
  minus_self : A.minus A = .ok []
  determined : (∀ denom, A.amountOf denom = B.amountOf denom) → isEqual A B = true
  ordered : ∀ greater, A.isGTE B = .ok greater →
    (greater = true ↔ ∀ denom, B.amountOf denom ≤ A.amountOf denom)
  plus_returns : (∀ denom, IntRange (A.amountOf denom + B.amountOf denom)) →
    ∃ sum, A.plus B = .ok sum
  minus_returns : (∀ denom, IntRange (A.amountOf denom - B.amountOf denom)) →
    (∃ diff, A.minus B = .ok diff) ∧ ∃ greater, A.isGTE B = .ok greater

/-- Coins form an ordered commutative group. -/
theorem coins_ordered_group {A B C : Coins} (hA : Reduced A) (hB : Reduced B) (hC : Reduced C) :
    GroupLaws A B C where
  plus_reduced sum hsum := hA.plus hB hsum
  amountOf_plus sum hsum denom := by
    rw [(hA.plus hB hsum).sorted.amountOf_eq, hA.sorted.amountOf_eq, hB.sorted.amountOf_eq]
    exact denomTotal_plus hsum
  amountOf_minus diff hdiff denom := by
    rw [(hA.plus hB.negative hdiff).sorted.amountOf_eq, hA.sorted.amountOf_eq,
      hB.sorted.amountOf_eq]
    exact denomTotal_minus hdiff denom
  commutes sum hsum := ⟨sum, (plus_comm B A).trans hsum, isEqual_iff.mpr rfl⟩
  associates sumAB left sumBC right hAB hleft hBC hright := by
    have hreducedAB := hA.plus hB hAB
    have hreducedBC := hB.plus hC hBC
    refine isEqual_iff.mpr ((hreducedAB.plus hC hleft).ext (hA.plus hreducedBC hright) fun denom => ?_)
    rw [denomTotal_plus hleft, denomTotal_plus hAB, denomTotal_plus hright, denomTotal_plus hBC,
      add_assoc]
  minus_self := hA.minus_self
  determined heq := by
    refine isEqual_iff.mpr (hA.ext hB fun denom => ?_)
    rw [← hA.sorted.amountOf_eq, heq, hB.sorted.amountOf_eq]
  ordered greater hresult := by
    rw [hA.isGTE_iff hB hresult]
    refine forall_congr' fun denom => ?_
    rw [hA.sorted.amountOf_eq, hB.sorted.amountOf_eq]
  plus_returns hrange := by
    refine hA.exists_plus hB fun denom => ?_
    rw [← hA.sorted.amountOf_eq, ← hB.sorted.amountOf_eq]
    exact hrange denom
  minus_returns hrange := by
    obtain ⟨diff, hdiff⟩ := hA.exists_minus hB fun denom => by
      rw [← hA.sorted.amountOf_eq, ← hB.sorted.amountOf_eq]
      exact hrange denom
    refine ⟨⟨diff, hdiff⟩, diff.isEmpty || diff.isNotNegative, ?_⟩
    unfold isGTE
    rw [hdiff]
    rfl

theorem coins_ordered_group_example :
    GroupLaws [⟨"atom", 5⟩, ⟨"photon", -2⟩] [⟨"photon", 2⟩, ⟨"steak", 7⟩] [⟨"atom", -5⟩] :=
  coins_ordered_group (by decide) (by decide) (by decide)

end Tepleton.Coins
