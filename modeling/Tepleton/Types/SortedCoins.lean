import Tepleton.Types.Coin

/-!
# Sorted coins

`Plus` is addition only on lists that are sorted by denomination.  Everything about merging is proved
along the branches of its loop (`Merges`): sorted lists merge to a sorted list, and no zero amounts
come in.

A list that is not sorted can be merged too.  `plus_out_of_order` says what becomes of two of its
coins that are not in order.

`IsValid` is weaker than its comment says: in a list of two or more coins it never looks at the
amount of the first.
-/

namespace Tepleton.Coins

open Lib

/-! ## Predicates of `coin.go` -/

def isZero (coins : Coins) : Bool := coins.all fun coin => decide (coin.amount = 0)

def isPositive (coins : Coins) : Bool :=
  !coins.isEmpty && coins.all fun coin => decide (0 < coin.amount)

/-- The loop of `IsValid`, over the coins after the first. -/
def validFrom (lowDenom : String) : Coins → Bool
  | [] => true
  | coin :: rest =>
    if coin.denom ≤ lowDenom then false
    else if coin.amount = 0 then false
    else validFrom coin.denom rest

def isValid : Coins → Bool
  | [] => true
  | [coin] => decide (coin.amount ≠ 0)
  | coin :: rest => validFrom coin.denom rest

def isEqual (coins coinsB : Coins) : Bool :=
  coins.length == coinsB.length &&
    (coins.zip coinsB).all fun pair =>
      pair.1.denom == pair.2.denom && pair.1.amount == pair.2.amount

def isGTE (coins coinsB : Coins) : Outcome Bool := do
  let diff ← coins.minus coinsB
  return diff.isEmpty || diff.isNotNegative

/-! ## Sorted lists -/

/-- The denominations increase strictly. -/
def Sorted (coins : Coins) : Prop := coins.Pairwise fun coin coin' => coin.denom < coin'.denom

/-- No amount is zero. -/
def Nonzero (coins : Coins) : Prop := ∀ coin ∈ coins, coin.amount ≠ 0

/-- Sorted, with amounts that are strictly positive: how balances are kept. -/
structure Canonical (coins : Coins) : Prop where
  sorted : Sorted coins
  positive : ∀ coin ∈ coins, 0 < coin.amount

instance (coins : Coins) : Decidable (Sorted coins) := inferInstanceAs (Decidable (List.Pairwise _ _))

instance (coins : Coins) : Decidable (Canonical coins) :=
  decidable_of_iff (Sorted coins ∧ ∀ coin ∈ coins, 0 < coin.amount)
    ⟨fun h => ⟨h.1, h.2⟩, fun h => ⟨h.sorted, h.positive⟩⟩

theorem canonical_nil : Canonical [] := ⟨List.Pairwise.nil, by simp⟩

variable {coins coinsB : Coins} {coin : Coin} {sum : Coins}

theorem Canonical.nonzero (h : Canonical coins) : Nonzero coins :=
  fun coin hcoin => (h.positive coin hcoin).ne'

theorem isEqual_iff : isEqual coins coinsB = true ↔ coins = coinsB := by
  induction coins generalizing coinsB with
  | nil => cases coinsB <;> simp [isEqual]
  | cons coin coins ih =>
    cases coinsB with
    | nil => simp [isEqual]
    | cons coinB coinsB =>
      have hrest := @ih coinsB
      simp only [isEqual, Bool.and_eq_true, beq_iff_eq] at hrest
      simp only [isEqual, List.length_cons, List.zip_cons_cons, List.all_cons,
        Bool.and_eq_true, beq_iff_eq, Nat.succ.injEq, List.cons.injEq, ← hrest]
      constructor
      · rintro ⟨hlength, ⟨hdenom, hamount⟩, hall⟩
        exact ⟨by cases coin; cases coinB; simp_all, hlength, hall⟩
      · rintro ⟨rfl, hlength, hall⟩
        exact ⟨hlength, ⟨rfl, rfl⟩, hall⟩

theorem isNotNegative_iff : isNotNegative coins = true ↔ ∀ coin ∈ coins, 0 ≤ coin.amount := by
  simp [isNotNegative]

theorem isPositive_iff :
    isPositive coins = true ↔ coins ≠ [] ∧ ∀ coin ∈ coins, 0 < coin.amount := by
  simp [isPositive]

theorem isZero_iff : isZero coins = true ↔ ∀ coin ∈ coins, coin.amount = 0 := by
  simp [isZero]

theorem validFrom_sorted {lowDenom : String} (h : validFrom lowDenom coins = true) :
    Sorted coins ∧ ∀ coin ∈ coins, lowDenom < coin.denom := by
  induction coins generalizing lowDenom with
  | nil => exact ⟨List.Pairwise.nil, by simp⟩
  | cons coin rest ih =>
    rw [validFrom] at h
    split_ifs at h with hdenom
    obtain ⟨hsorted, habove⟩ := ih h
    have hlow : lowDenom < coin.denom := not_le.mp hdenom
    refine ⟨List.pairwise_cons.mpr ⟨habove, hsorted⟩, ?_⟩
    intro coin' hcoin'
    rcases List.mem_cons.mp hcoin' with rfl | hcoin'
    · exact hlow
    · exact hlow.trans (habove coin' hcoin')

theorem isValid_sorted (h : isValid coins = true) : Sorted coins := by
  match coins with
  | [] => exact List.Pairwise.nil
  | [coin] => exact List.pairwise_singleton _ _
  | coin :: coin' :: rest =>
    obtain ⟨hsorted, habove⟩ := validFrom_sorted h
    exact List.pairwise_cons.mpr ⟨habove, hsorted⟩

theorem canonical_of_checks (hvalid : isValid coins = true) (hpositive : isPositive coins = true) :
    Canonical coins :=
  ⟨isValid_sorted hvalid, (isPositive_iff.mp hpositive).2⟩

theorem denomTotal_eq_zero {denom : String} (h : ∀ coin ∈ coins, coin.denom ≠ denom) :
    denomTotal denom coins = 0 := by
  induction coins with
  | nil => rfl
  | cons coin coins ih =>
    rw [List.forall_mem_cons] at h
    rw [denomTotal_cons, if_neg h.1, ih h.2, zero_add]

theorem Sorted.denomTotal_eq (h : Sorted coins) (hcoin : coin ∈ coins) :
    denomTotal coin.denom coins = coin.amount := by
  induction coins with
  | nil => simp at hcoin
  | cons c rest ih =>
    obtain ⟨habove, hrest⟩ := List.pairwise_cons.mp h
    rw [denomTotal_cons]
    rcases List.mem_cons.mp hcoin with rfl | hmem
    · rw [if_pos rfl, denomTotal_eq_zero fun c' hc' => (habove c' hc').ne', add_zero]
    · rw [if_neg (habove coin hmem).ne, ih hrest hmem, zero_add]

theorem Sorted.negative (h : Sorted coins) : Sorted (negative coins) := by
  rw [Sorted, Coins.negative, List.pairwise_map]
  exact h

theorem denomTotal_nonneg (h : ∀ coin ∈ coins, 0 ≤ coin.amount) (denom : String) :
    0 ≤ denomTotal denom coins := by
  apply List.sum_nonneg
  intro amount hamount
  obtain ⟨coin, hcoin, rfl⟩ := List.mem_map.mp hamount
  split_ifs
  · exact h coin hcoin
  · exact le_rfl

/-! ## Merging -/

theorem Merges.forall_denom {P : String → Prop} (h : Merges coins coinsB sum)
    (hcoins : ∀ coin ∈ coins, P coin.denom) (hcoinsB : ∀ coin ∈ coinsB, P coin.denom) : ∀ coin ∈
    sum, P coin.denom := by
  induction h with
  | nilLeft coinsB => exact hcoinsB
  | nilRight coins => exact hcoins
  | less _ _ ih =>
    rw [List.forall_mem_cons] at hcoins ⊢
    exact ⟨hcoins.1, ih hcoins.2 hcoinsB⟩
  | cancel _ _ _ ih =>
    rw [List.forall_mem_cons] at hcoins hcoinsB
    exact ih hcoins.2 hcoinsB.2
  | add _ _ _ ih =>
    rw [List.forall_mem_cons] at hcoins hcoinsB ⊢
    exact ⟨hcoins.1, ih hcoins.2 hcoinsB.2⟩
  | greater _ _ ih =>
    rw [List.forall_mem_cons] at hcoinsB ⊢
    exact ⟨hcoinsB.1, ih hcoins hcoinsB.2⟩

/-- Sorted lists merge to a sorted list. -/
theorem sorted_plus (h : plus coins coinsB = .ok sum) (hcoins : Sorted coins)
    (hcoinsB : Sorted coinsB) : Sorted sum := by
  replace h := merges_of_plus h
  induction h with
  | nilLeft coinsB => exact hcoinsB
  | nilRight coins => exact hcoins
  | @less coinA _ _ _ _ hlt hrest ih =>
    obtain ⟨habove, hrestA⟩ := List.pairwise_cons.mp hcoins
    refine List.pairwise_cons.mpr ⟨?_, ih hrestA hcoinsB⟩
    refine hrest.forall_denom (P := fun denom => coinA.denom < denom) habove ?_
    rw [List.forall_mem_cons]
    exact ⟨hlt, fun coin hcoin => hlt.trans ((List.pairwise_cons.mp hcoinsB).1 coin hcoin)⟩
  | cancel _ _ _ ih => exact ih hcoins.of_cons hcoinsB.of_cons
  | @add coinA _ _ _ _ heq _ hrest ih =>
    obtain ⟨habove, hrestA⟩ := List.pairwise_cons.mp hcoins
    obtain ⟨haboveB, hrestB⟩ := List.pairwise_cons.mp hcoinsB
    refine List.pairwise_cons.mpr ⟨?_, ih hrestA hrestB⟩
    refine hrest.forall_denom (P := fun denom => coinA.denom < denom) habove ?_
    exact fun coin hcoin => heq ▸ haboveB coin hcoin
  | @greater _ coinB _ _ _ hgt hrest ih =>
    obtain ⟨haboveB, hrestB⟩ := List.pairwise_cons.mp hcoinsB
    refine List.pairwise_cons.mpr ⟨?_, ih hcoins hrestB⟩
    refine hrest.forall_denom (P := fun denom => coinB.denom < denom) ?_ haboveB
    rw [List.forall_mem_cons]
    exact ⟨hgt, fun coin hcoin => hgt.trans ((List.pairwise_cons.mp hcoins).1 coin hcoin)⟩

theorem nonzero_plus (h : plus coins coinsB = .ok sum) (hcoins : Nonzero coins)
    (hcoinsB : Nonzero coinsB) : Nonzero sum := by
  replace h := merges_of_plus h
  induction h with
  | nilLeft coinsB => exact hcoinsB
  | nilRight coins => exact hcoins
  | less _ _ ih =>
    rw [Nonzero, List.forall_mem_cons] at hcoins ⊢
    exact ⟨hcoins.1, ih hcoins.2 hcoinsB⟩
  | cancel _ _ _ ih =>
    rw [Nonzero, List.forall_mem_cons] at hcoins hcoinsB
    exact ih hcoins.2 hcoinsB.2
  | add _ hne _ ih =>
    rw [Nonzero, List.forall_mem_cons] at hcoins hcoinsB ⊢
    exact ⟨hne, ih hcoins.2 hcoinsB.2⟩
  | greater _ _ ih =>
    rw [Nonzero, List.forall_mem_cons] at hcoinsB ⊢
    exact ⟨hcoinsB.1, ih hcoins hcoinsB.2⟩

theorem Nonzero.negative (h : Nonzero coins) : Nonzero (negative coins) := by
  intro coin hcoin
  obtain ⟨coin', hcoin', rfl⟩ := List.mem_map.mp hcoin
  exact neg_ne_zero.mpr (h coin' hcoin')

theorem canonical_of_isNotNegative (hsorted : Sorted coins) (hnonzero : Nonzero coins)
    (h : isNotNegative coins = true) : Canonical coins :=
  ⟨hsorted, fun coin hcoin =>
    (isNotNegative_iff.mp h coin hcoin).lt_of_ne (hnonzero coin hcoin).symm⟩

theorem Canonical.plus (hcoins : Canonical coins) (hsorted : Sorted coinsB)
    (hnonzero : Nonzero coinsB) (h : coins.plus coinsB = .ok sum)
    (hnonneg : isNotNegative sum = true) : Canonical sum :=
  canonical_of_isNotNegative (sorted_plus h hcoins.sorted hsorted)
    (nonzero_plus h hcoins.nonzero hnonzero) hnonneg

/-! ## Merging any list into a sorted one

The second list need not be sorted.  Once the first list has nothing left up to some denomination, the
coins of the second list up to there go out as they are. -/

/-- The list has a coin of the denomination, whatever its amount. -/
def Held (denom : String) (coins : Coins) : Prop := ∃ coin ∈ coins, coin.denom = denom

instance (denom : String) (coins : Coins) : Decidable (Held denom coins) :=
  inferInstanceAs (Decidable (∃ coin ∈ coins, coin.denom = denom))

theorem Held.of_cons {denom : String} (h : Held denom (coin :: coins)) (hne : coin.denom ≠ denom) :
    Held denom coins := by
  obtain ⟨coin', hcoin', hdenom⟩ := h
  rcases List.mem_cons.mp hcoin' with rfl | hcoin'
  · exact absurd hdenom hne
  · exact ⟨coin', hcoin', hdenom⟩

theorem Merges.mem_of_below (h : Merges coins coinsB sum) (hmem : coin ∈ coinsB)
    (hbelow : ∀ coin' ∈ coins, coin.denom < coin'.denom) : coin ∈ sum := by
  induction h with
  | nilLeft coinsB => exact hmem
  | nilRight coins => exact absurd hmem List.not_mem_nil
  | less _ _ ih => exact List.mem_cons_of_mem _ (ih hmem (List.forall_mem_cons.mp hbelow).2)
  | cancel heq _ _ ih =>
    obtain ⟨hlt, hrest⟩ := List.forall_mem_cons.mp hbelow
    rcases List.mem_cons.mp hmem with rfl | hmem
    · exact absurd hlt (heq ▸ lt_irrefl _)
    · exact ih hmem hrest
  | add heq _ _ ih =>
    obtain ⟨hlt, hrest⟩ := List.forall_mem_cons.mp hbelow
    rcases List.mem_cons.mp hmem with rfl | hmem
    · exact absurd hlt (heq ▸ lt_irrefl _)
    · exact List.mem_cons_of_mem _ (ih hmem hrest)
  | greater _ _ ih =>
    rcases List.mem_cons.mp hmem with rfl | hmem
    · exact List.mem_cons_self
    · exact List.mem_cons_of_mem _ (ih hmem hbelow)

/-- Two coins of the second list that are not in order: the later one goes out as it is, and if the
earlier one does not cancel then something of its denomination goes out before. -/
theorem plus_out_of_order {early late : Coin} (h : plus coins coinsB = .ok sum)
    (hsorted : Sorted coins) (hpair : [early, late].Sublist coinsB)
    (horder : late.denom ≤ early.denom) :
    late ∈ sum ∧ (⟨early.denom, -early.amount⟩ ∈ coins ∨
      ∃ coin, coin.denom = early.denom ∧ [coin, late].Sublist sum) := by
  replace h := merges_of_plus h
  -- a coin that goes out first is in front of the two
  have hcons : ∀ {coin : Coin} {sum : Coins}, (∃ coin, coin.denom = early.denom ∧
      [coin, late].Sublist sum) → ∃ coin', coin'.denom = early.denom ∧
        [coin', late].Sublist (coin :: sum) := by
    rintro coin sum ⟨coin', hdenom, hsub⟩
    exact ⟨coin', hdenom, hsub.cons _⟩
  induction h with
  | nilLeft coinsB => exact ⟨hpair.subset (by simp), .inr ⟨early, rfl, hpair⟩⟩
  | nilRight coins => exact absurd hpair (by simp)
  | less _ _ ih =>
    obtain ⟨hlate, hcases⟩ := ih hsorted.of_cons hpair
    exact ⟨List.mem_cons_of_mem _ hlate, hcases.imp (List.mem_cons_of_mem _) hcons⟩
  | cancel heq hzero hmerges ih =>
    obtain ⟨habove, hrest⟩ := List.pairwise_cons.mp hsorted
    rcases List.sublist_cons_iff.mp hpair with hpair | ⟨_, hlist, hlate⟩
    · exact (ih hrest hpair).imp_right (Or.imp_left (List.mem_cons_of_mem _))
    · cases hlist
      refine ⟨hmerges.mem_of_below (List.singleton_sublist.mp hlate) ?_, .inl ?_⟩
      · exact fun coin hcoin => (heq ▸ horder).trans_lt (habove coin hcoin)
      · rw [List.mem_cons, ← heq, ← eq_neg_of_add_eq_zero_left hzero]
        exact .inl rfl
  | add heq _ hmerges ih =>
    obtain ⟨habove, hrest⟩ := List.pairwise_cons.mp hsorted
    rcases List.sublist_cons_iff.mp hpair with hpair | ⟨_, hlist, hlate⟩
    · obtain ⟨hlate, hcases⟩ := ih hrest hpair
      exact ⟨List.mem_cons_of_mem _ hlate, hcases.imp (List.mem_cons_of_mem _) hcons⟩
    · cases hlist
      have hlate := hmerges.mem_of_below (List.singleton_sublist.mp hlate)
        fun coin hcoin => (heq ▸ horder).trans_lt (habove coin hcoin)
      refine ⟨List.mem_cons_of_mem _ hlate,
        .inr ⟨_, ?_, (List.singleton_sublist.mpr hlate).cons_cons _⟩⟩
      exact heq
  | greater hgt hmerges ih =>
    rcases List.sublist_cons_iff.mp hpair with hpair | ⟨_, hlist, hlate⟩
    · obtain ⟨hlate, hcases⟩ := ih hsorted hpair
      exact ⟨List.mem_cons_of_mem _ hlate, hcases.imp_right hcons⟩
    · cases hlist
      have hlt := horder.trans_lt hgt
      have hlate := hmerges.mem_of_below (List.singleton_sublist.mp hlate) (List.forall_mem_cons.mpr
        ⟨hlt, fun coin hcoin => hlt.trans ((List.pairwise_cons.mp hsorted).1 coin hcoin)⟩)
      exact ⟨List.mem_cons_of_mem _ hlate,
        .inr ⟨_, rfl, (List.singleton_sublist.mpr hlate).cons_cons _⟩⟩

theorem cancels_of_out_of_order {early late : Coin} (h : plus coins coinsB = .ok sum)
    (hsorted : Sorted coins) (hsum : Sorted sum) (hpair : [early, late].Sublist coinsB)
    (horder : late.denom ≤ early.denom) : ⟨early.denom, -early.amount⟩ ∈ coins := by
  rcases (plus_out_of_order h hsorted hpair horder).2 with hcancel | ⟨coin, hdenom, hsub⟩
  · exact hcancel
  · have hlt := List.pairwise_iff_forall_sublist.mp hsum hsub
    rw [hdenom] at hlt
    exact absurd hlt (not_lt.mpr horder)

theorem Held.cons {denom : String} (h : Held denom coins) : Held denom (coin :: coins) :=
  h.imp fun _ hcoin => ⟨List.mem_cons_of_mem _ hcoin.1, hcoin.2⟩

/-- A zero amount that meets no coin stays in the sum. -/
theorem held_of_nonzero_plus (h : plus coins coinsB = .ok sum) (hsum : Nonzero sum) : ∀ coin ∈
    coinsB, coin.amount = 0 → Held coin.denom coins := by
  replace h := merges_of_plus h
  induction h with
  | nilLeft coinsB => exact fun coin hcoin hzero => absurd hzero (hsum coin hcoin)
  | nilRight coins => exact fun coin hcoin => absurd hcoin List.not_mem_nil
  | less _ _ ih =>
    exact fun coin hcoin hzero => (ih (List.forall_mem_cons.mp hsum).2 coin hcoin hzero).cons
  | cancel heq _ _ ih =>
    exact List.forall_mem_cons.mpr ⟨fun _ => ⟨_, List.mem_cons_self, heq⟩,
      fun coin hcoin hzero => (ih hsum coin hcoin hzero).cons⟩
  | add heq _ _ ih =>
    exact List.forall_mem_cons.mpr ⟨fun _ => ⟨_, List.mem_cons_self, heq⟩,
      fun coin hcoin hzero => (ih (List.forall_mem_cons.mp hsum).2 coin hcoin hzero).cons⟩
  | greater _ _ ih =>
    obtain ⟨hcoinB, hrest⟩ := List.forall_mem_cons.mp hsum
    exact List.forall_mem_cons.mpr ⟨fun hzero => absurd hzero hcoinB, ih hrest⟩

/-- Among sorted lists, zero amounts that meet a coin do not stay. -/
theorem nonzero_plus_of_held (h : plus coins coinsB = .ok sum) (hcoins : Sorted coins)
    (hcoinsB : Sorted coinsB) (hnonzero : Nonzero coins)
    (hheld : ∀ coin ∈ coinsB, coin.amount = 0 → Held coin.denom coins) : Nonzero sum := by
  replace h := merges_of_plus h
  induction h with
  | nilLeft coinsB =>
    intro coin hcoin hzero
    obtain ⟨coin', hcoin', -⟩ := hheld coin hcoin hzero
    exact absurd hcoin' List.not_mem_nil
  | nilRight coins => exact hnonzero
  | less hlt _ ih =>
    obtain ⟨hcoinA, hrest⟩ := List.forall_mem_cons.mp hnonzero
    refine List.forall_mem_cons.mpr ⟨hcoinA, ih hcoins.of_cons hcoinsB hrest ?_⟩
    intro coin hcoin hzero
    refine (hheld coin hcoin hzero).of_cons (ne_of_lt ?_)
    rcases List.mem_cons.mp hcoin with rfl | hcoin
    · exact hlt
    · exact hlt.trans ((List.pairwise_cons.mp hcoinsB).1 coin hcoin)
  | cancel heq _ _ ih =>
    obtain ⟨habove, hsorted⟩ := List.pairwise_cons.mp hcoinsB
    refine ih hcoins.of_cons hsorted (List.forall_mem_cons.mp hnonzero).2 ?_
    intro coin hcoin hzero
    refine (hheld coin (List.mem_cons_of_mem _ hcoin) hzero).of_cons (ne_of_lt ?_)
    exact heq ▸ habove coin hcoin
  | add heq hne _ ih =>
    obtain ⟨habove, hsorted⟩ := List.pairwise_cons.mp hcoinsB
    refine List.forall_mem_cons.mpr
      ⟨hne, ih hcoins.of_cons hsorted (List.forall_mem_cons.mp hnonzero).2 ?_⟩
    intro coin hcoin hzero
    refine (hheld coin (List.mem_cons_of_mem _ hcoin) hzero).of_cons (ne_of_lt ?_)
    exact heq ▸ habove coin hcoin
  | greater hgt _ ih =>
    refine List.forall_mem_cons.mpr ⟨?_, ih hcoins hcoinsB.of_cons hnonzero fun coin hcoin =>
      hheld coin (List.mem_cons_of_mem _ hcoin)⟩
    intro hzero
    obtain ⟨coin, hcoin, hdenom⟩ := hheld _ List.mem_cons_self hzero
    rcases List.mem_cons.mp hcoin with rfl | hcoin
    · exact absurd hdenom hgt.ne'
    · exact absurd hdenom (hgt.trans ((List.pairwise_cons.mp hcoins).1 coin hcoin)).ne'

theorem mem_negative : coin ∈ negative coins ↔ ⟨coin.denom, -coin.amount⟩ ∈ coins := by
  constructor
  · intro hcoin
    obtain ⟨coin', hcoin', rfl⟩ := List.mem_map.mp hcoin
    simpa using hcoin'
  · intro hcoin
    exact List.mem_map.mpr ⟨_, hcoin, by simp⟩

end Tepleton.Coins
